import JvmPatch.Proofs.Apply.Declarations
import JvmPatch.Proofs.Renumbering.Building
import JvmPatch.Proofs.Renumbering.Editing
import JvmPatch.Proofs.Renumbering.Search

/-! Applying scripts to class sets that differ in numbers only. Members come in under the same
numbers in both sets, and take the same names, if no name is tied where they come in. -/

set_option autoImplicit false

namespace JvmPatch

/-- No name is tied: neither in a class, nor between methods with different names of the ancestors
of a class. -/
structure ApplyState.Untied (s : ApplyState) : Prop where
  scope : s.scope.Untied s.classes
  inherited : ∀ cls key, ∀ m ∈ s.scope.methodsOf key, ∀ n ∈ s.scope.methodsOf key,
    (s.classes.methodAt m).declaredBy ∈ s.classes.ancestors cls →
      (s.classes.methodAt n).declaredBy ∈ s.classes.ancestors cls →
        (s.classes.methodAt m).name = (s.classes.methodAt n).name

/-- Two states differ in numbers only, and what a class set has is still there. -/
structure ApplyState.Renumbered (ρ : Renumbering) (base : ClassSet) (s t : ApplyState) : Prop where
  classes : ClassSet.Renumbered ρ s.classes t.classes
  scope : Scope.Renumbered ρ s.classes s.scope t.scope
  summary : t.summary = s.summary
  since : ClassSet.Evolves .everything base s.classes

/-- A method whose body has to be built or changed, under other numbers. -/
def PendingBody.renumber (ρ : Renumbering) : PendingBody → PendingBody
  | .added id block => .added (ρ.method id) block
  | .matched cls handle block => .matched (ρ.cls cls) (ρ.method handle) block

theorem ClassSet.WellFormed.known_of_bodyOf {set : ClassSet} (formed : set.WellFormed)
    {cls : ClassId} {handle body : MethodId} (found : set.bodyOf cls handle = some body) :
    set.HasMethod body := by
  obtain ⟨id, -, declared⟩ := List.exists_of_findSome?_eq_some found
  exact (formed.methods id body (List.mem_of_find?_eq_some declared)).1

namespace ClassSet.Renumbered

variable {ρ : Renumbering} {set other : ClassSet} (same : Renumbered ρ set other)
include same

/-- The declaration of a method is changed in both sets. -/
theorem modifyDecl (m : MethodId) {f : MethodEntry → MethodEntry}
    (decl : ∀ e e' : MethodEntry, e'.toMethodDecl = e.toMethodDecl →
      (f e').toMethodDecl = (f e).toMethodDecl)
    (rest : ∀ e, (f e).hidden = e.hidden ∧ (f e).owners = e.owners ∧
      (f e).declaredBy = e.declaredBy)
    (evolves : Evolves .everything set (set.modifyMethod m f)) :
    Renumbered ρ (set.modifyMethod m f) (other.modifyMethod (ρ.method m) f) := by
  refine same.modifyMethod m (fun alike => ⟨decl _ _ alike.decl, ?_, fun o => ?_⟩)
    (fun e => ⟨(rest e).2.2, (rest e).2.2⟩) evolves
  · rw [(rest _).1, (rest _).1, alike.hidden]
  · rw [(rest _).2.1, (rest _).2.1]
    exact alike.owners o

end ClassSet.Renumbered

namespace ApplyState.Renumbered

variable {ρ : Renumbering} {base : ClassSet} {s t : ApplyState}
  (same : ApplyState.Renumbered ρ base s t)
include same

theorem hasMethod {m : MethodId} (known : base.HasMethod m) : s.classes.HasMethod m :=
  same.since.hasMethod m known

/-- Both class sets change alike. -/
theorem evolve {set other : ClassSet} (classes : ClassSet.Renumbered ρ set other)
    (evolves : ClassSet.Evolves .everything s.classes set) :
    ApplyState.Renumbered ρ base { s with classes := set } { t with classes := other } where
  classes := classes
  scope := same.scope.later evolves.hasMethod evolves.hasField
  summary := same.summary
  since := same.since.trans evolves

/-- Both take over new bindings. -/
theorem rebind {scope scope' : Scope} (renumbered : Scope.Renumbered ρ s.classes scope scope') :
    ApplyState.Renumbered ρ base { s with scope := scope } { t with scope := scope' } :=
  { same with scope := renumbered }

end ApplyState.Renumbered

/-- From states that differ in numbers only, two programs end with one result or one error and with
such states. -/
abbrev SameApply {α : Type} (ρ : Renumbering) (base : ClassSet) (m m' : ApplyM α) : Prop :=
  Agree (ApplyState.Renumbered ρ base) (fun x y => y = x) m m'

namespace SameApply

open ApplyM

variable {ρ : Renumbering} {base : ClassSet}

theorem modifyClasses {f g : ClassSet → ClassSet}
    (classes : ∀ set other, ClassSet.Renumbered ρ set other →
      ClassSet.Renumbered ρ (f set) (g other))
    (evolves : ∀ set, ClassSet.Evolves .everything set (f set)) :
    SameApply ρ base (modifyClasses f) (modifyClasses g) :=
  fun s _ same => .ok rfl (same.evolve (classes _ _ same.classes) (evolves s.classes))

/-- The header of a class is changed, but for its name. -/
theorem modifyHeader (id : ClassId) {f : ClassEntry → ClassEntry}
    (numbers : ∀ c, f (c.renumber ρ) = (f c).renumber ρ) (name : ∀ c, (f c).name = c.name)
    (lists : ∀ c, (f c).methods = c.methods ∧ (f c).fields = c.fields ∧ (f c).view = c.view) :
    SameApply ρ base (ApplyM.modifyClasses fun set => set.modifyClass id f)
      (ApplyM.modifyClasses fun set => set.modifyClass (ρ.cls id) f) := by
  have evolves (set : ClassSet) : ClassSet.Evolves .everything set (set.modifyClass id f) :=
    .modifyHeader trivial set name lists
  exact modifyClasses (fun set other same => same.modifyClass id (numbers _) (evolves set)) evolves

theorem touch (id : ClassId) : SameApply ρ base (touch id) (touch (ρ.cls id)) :=
  modifyHeader id (fun _ => rfl) (fun _ => rfl) fun _ => ⟨rfl, rfl, rfl⟩

theorem count (f : ApplySummary → ApplySummary) : SameApply ρ base (count f) (count f) :=
  fun _ _ same => .ok rfl { same with summary := congrArg f same.summary }

theorem mapped {α : Type} (line : Nat) {f g : ApplyState → Except UnboundName α}
    (alike : ∀ s t, ApplyState.Renumbered ρ base s t → g t = f s) :
    SameApply ρ base (mapped line f) (mapped line g) := by
  refine .get fun s t same => ?_
  rw [alike s t same]
  cases f s with
  | ok x => exact .ok rfl same
  | error e => exact .error same

theorem mappedName (line : Nat) (ident : Ident) :
    SameApply ρ base (mappedName line ident) (mappedName line ident) :=
  mapped line fun _ _ same => same.scope.mapClass same.classes ident.text

theorem mapType (line : Nat) (type : TypeDesc) : SameApply ρ base
    (ApplyM.mapped line fun s => s.scope.mapType s.classes type)
    (ApplyM.mapped line fun s => s.scope.mapType s.classes type) :=
  mapped line fun _ _ same => same.scope.mapType same.classes type

theorem mapMethod (line : Nat) (type : MethodDesc) : SameApply ρ base
    (ApplyM.mapped line fun s => s.scope.mapMethod s.classes type)
    (ApplyM.mapped line fun s => s.scope.mapMethod s.classes type) :=
  mapped line fun _ _ same => same.scope.mapMethod same.classes type

theorem assigned {α : Type} {κ : α → α} (element : String) (x : Option α) :
    Agree (ApplyState.Renumbered ρ base) (fun y z => z = κ y ∧ x = some y) (assigned element x)
      (assigned element (x.map κ)) := by
  cases x with
  | none => exact .throw _ _ _
  | some x => exact .pure ⟨rfl, rfl⟩

theorem checked (R : ApplyState → ApplyState → Prop) (line : Nat) (code : Code) :
    Agree R (fun x y => y = x) (checked line code) (checked line code) := by
  unfold ApplyM.checked
  split
  · exact .pure rfl
  · exact .throw _ _ _

/-- The class of a block comes in under one number. -/
theorem addClass (block : ClassBlock) :
    Agree (ApplyState.Renumbered ρ base) (fun id id' => id' = ρ.cls id) (addClass block)
      (addClass block) := by
  refine .get fun s t same => ?_
  dsimp only
  rw [same.classes.find?, Option.isSome_map, ← same.classes.nextClass]
  cases taken : s.classes.find? block.ident.name with
  | some id => exact .error same
  | none =>
    have evolves := ClassSet.Evolves.addClass .everything s.classes
      (c := .fresh block.ident.name (some objectClass) block.kind.access) rfl rfl rfl
    have entered := same.evolve (same.classes.addClass rfl rfl rfl taken) evolves
    have counted : Agree (ApplyState.Renumbered ρ base) (fun id id' => id' = ρ.cls id)
        (do
          ApplyM.count fun n => { n with addedClasses := n.addedClasses + 1 }
          pure s.classes.nextClass)
        (do
          ApplyM.count fun n => { n with addedClasses := n.addedClasses + 1 }
          pure (ρ.cls s.classes.nextClass)) :=
      (count _).bindSame fun _ => .pure rfl
    have bound := (same.scope.later evolves.hasMethod evolves.hasField).bindClass? block.ident.text
      s.classes.nextClass
    refine EndAlike.bind (Q := fun _ _ => True) (.ok trivial entered)
      fun _ _ s' t' ran _ entered => ?_
    by_cases bindable : block.ident.isBindable = true
    · rw [if_pos bindable, if_pos bindable]
      cases binds : s.scope.bindClass? block.ident.text s.classes.nextClass <;>
        cases binds' : t.scope.bindClass? block.ident.text (ρ.cls s.classes.nextClass) <;>
        rw [binds, binds'] at bound <;> cases bound
      · exact .error entered
      · cases ran
        refine EndAlike.bind (Q := fun _ _ => True) (.ok trivial (entered.rebind ‹_›))
          fun _ _ u v _ _ same => ?_
        exact counted u v same
    · rw [if_neg bindable, if_neg bindable]
      exact counted _ _ entered

/-- What is chosen for members stays as it is. -/
theorem addClasses {blocks : List (ClassBlock × ClassChoice)}
    (known : ∀ e ∈ blocks, e.2.Known base) :
    Agree (ApplyState.Renumbered ρ base)
      (fun xs ys => ys = xs.map (fun e => (e.1, e.2.renumber ρ)) ∧ ∀ e ∈ xs, e.2.Known base)
      (addClasses blocks) (addClasses (blocks.map fun e => (e.1, e.2.renumber ρ))) := by
  induction blocks with
  | nil => exact .pure ⟨rfl, known⟩
  | cons e rest ih =>
    obtain ⟨block, choice⟩ := e
    obtain ⟨first, others⟩ := List.forall_mem_cons.1 known
    rw [List.map_cons, ApplyM.addClasses, ApplyM.addClasses]
    have onward (choice : ClassChoice) (known : choice.Known base) :
        Agree (ApplyState.Renumbered ρ base)
        (fun xs ys => ys = xs.map (fun e => (e.1, e.2.renumber ρ)) ∧ ∀ e ∈ xs, e.2.Known base)
        (do
          let rest ← ApplyM.addClasses rest
          pure ((block, choice) :: rest))
        (do
          let rest ← ApplyM.addClasses (rest.map fun e => (e.1, e.2.renumber ρ))
          pure ((block, choice.renumber ρ) :: rest)) := by
      refine (ih others).bind fun xs ys same => .pure ⟨?_, List.forall_mem_cons.2 ⟨known, same.2⟩⟩
      rw [same.1, List.map_cons]
    dsimp only
    split
    · refine (addClass block).bind fun id id' isId => ?_
      subst isId
      exact onward { choice with cls := some id } ⟨first.fields, first.methods⟩
    · exact onward choice first

theorem applySuper (line : Nat) (id : ClassId) (l : SupertypeLine) :
    SameApply ρ base (applySuper line id l) (applySuper line (ρ.cls id) l) := by
  have become (name : String) : SameApply ρ base _ _ := modifyHeader id
    (f := fun c => { c with superName := some name, modified := true }) (fun _ => rfl)
      (fun _ => rfl)
    fun _ => ⟨rfl, rfl, rfl⟩
  unfold ApplyM.applySuper
  dsimp only
  split
  · exact .pure rfl
  · exact (mappedName line l.ident).bindSame become
  · split
    · exact become _
    · refine (mappedName line l.ident).bindSame fun name => .read fun s t same => ?_
      rw [congrArg (·.superName) (same.classes.header id)]
      split
      · exact become _
      · exact .pure rfl

theorem applyInterface (line : Nat) (id : ClassId) (l : SupertypeLine) :
    SameApply ρ base (applyInterface line id l) (applyInterface line (ρ.cls id) l) := by
  have become (f : List String → List String) : SameApply ρ base _ _ := modifyHeader id
    (f := fun c => { c with interfaces := f c.interfaces, modified := true }) (fun _ => rfl)
      (fun _ => rfl)
    fun _ => ⟨rfl, rfl, rfl⟩
  unfold ApplyM.applyInterface
  dsimp only
  split
  · exact .pure rfl
  · refine (mappedName line l.ident).bindSame fun name => ?_
    exact become fun names => if names.contains name then names else names ++ [name]
  · exact (mappedName line l.ident).bindSame fun name => become fun names =>
      names.filter (· != name)

theorem removeClass (id : ClassId) : SameApply ρ base (removeClass id) (removeClass (ρ.cls id)) :=
  (modifyHeader id (f := fun c => { c with removed := true, modified := true }) (fun _ => rfl)
    (fun _ => rfl) fun _ => ⟨rfl, rfl, rfl⟩).bindSame fun _ => count _

theorem bindIfFree {f g : ApplyState → Option Scope} {s t : ApplyState}
    (same : ApplyState.Renumbered ρ base s t)
    (binds : Option.Rel (Scope.Renumbered ρ s.classes) (f s) (g t)) :
    EndAlike (ApplyState.Renumbered ρ base) (fun x y => y = x) ((bindIfFree f).run s)
      ((bindIfFree g).run t) := by
  have left : Scope.Renumbered ρ s.classes ((f s).getD s.scope) ((g t).getD t.scope) := by
    revert binds
    cases f s <;> cases g t <;> intro binds <;> cases binds
    · exact same.scope
    · exact ‹_›
  exact .ok rfl (same.rebind left)

/-- A field comes in under one number and takes the same name. -/
theorem addField (id : ClassId) (l : FieldLine) {s t : ApplyState}
    (same : ApplyState.Renumbered ρ base s t) (untied : s.scope.Untied s.classes) :
    EndAlike (ApplyState.Renumbered ρ base) (fun f f' => f' = ρ.field f)
      ((addField id l).run s) ((addField (ρ.cls id) l).run t) := by
  have named : (t.scope.field? t.classes (ρ.cls id) (.of l.ident l.desc)).map
      (fun f => (t.classes.fieldAt f).name) =
      (s.scope.field? s.classes id (.of l.ident l.desc)).map fun f =>
        (s.classes.fieldAt f).name := by
    rw [same.scope.field? same.classes untied, Option.map_map]
    exact congrArg (fun f => Option.map f _) (funext same.classes.fieldName)
  refine .get ?_
  dsimp only
  rw [named, ← same.classes.nextField]
  refine (mapType l.line l.type s t same).bind fun type _ s' t' ran isType entered => ?_
  subst isType
  obtain ⟨-, rfl⟩ := mapped_ok ran
  have added (decl : FieldDecl) := entered.evolve (entered.classes.addField id decl false)
    (.addField trivial s'.classes decl false)
  have finish : Agree (ApplyState.Renumbered ρ base) (fun f f' => f' = ρ.field f)
      (do ApplyM.touch id; pure s'.classes.nextField)
        (do ApplyM.touch (ρ.cls id); pure (ρ.field s'.classes.nextField)) :=
    (touch id).bindSame fun _ => .pure rfl
  refine EndAlike.bind (Q := fun _ _ => True) (.ok trivial (added _))
    fun _ _ u v ran _ entered => ?_
  cases ran
  by_cases bindable : l.ident.isBindable = true
  · rw [if_pos bindable, if_pos bindable]
    refine (bindIfFree entered (entered.scope.bindField? entered.classes id _ ?_)).bind
      fun _ _ u v _ _ same => finish u v same
    simp [ClassSet.HasField, ClassSet.addField, ClassSet.nextField, ClassSet.modifyClass]
  · rw [if_neg bindable, if_neg bindable]
    exact finish _ _ entered

end SameApply

/-- The method whose name an added method takes has one name in both states. -/
theorem ApplyState.Renumbered.namesake? {ρ : Renumbering} {base : ClassSet} {s t : ApplyState}
    (same : ApplyState.Renumbered ρ base s t) (untied : s.Untied) (id : ClassId)
    (block : MethodBlock) :
    (ApplyM.namesake? t (ρ.cls id) block).map (fun m => (t.classes.methodAt m).name) =
      (ApplyM.namesake? s id block).map fun m => (s.classes.methodAt m).name := by
  have overridden (key : MemberKey) :
      (ApplyM.overridden? t (ρ.cls id) key).map (fun m => (t.classes.methodAt m).name) =
      (ApplyM.overridden? s id key).map fun m => (s.classes.methodAt m).name := by
    refine map_find?_perm (same.scope.methods.keysOf key) (fun m member => ?_)
      (fun m _ => same.classes.methodName m)
      fun m member n member' isAbove isAbove' => ?_
    · have isOwner := Scope.Renumbered.declares_method same.classes same.scope member
        (s.classes.methodAt m).declaredBy
      rw [beq_self_eq_true, beq_iff_eq] at isOwner
      rw [isOwner, Bool.eq_iff_iff, List.contains_iff_mem, List.contains_iff_mem]
      exact same.classes.mem_ancestors id _
    · rw [List.contains_iff_mem] at isAbove isAbove'
      exact untied.inherited id key m member n member' isAbove isAbove'
  unfold ApplyM.namesake?
  split
  · dsimp only
    rw [same.scope.method? same.classes untied.scope]
    cases s.scope.method? s.classes id (.of block.ident block.desc) with
    | some bound => exact congrArg some (same.classes.methodName bound)
    | none =>
      dsimp only [Option.map_none]
      split
      · exact overridden _
      · rfl
  · rfl

namespace SameApply

open ApplyM

variable {ρ : Renumbering} {base : ClassSet}

/-- A method comes in under one number and takes the same name. -/
theorem addMethod (id : ClassId) (block : MethodBlock) {s t : ApplyState}
    (same : ApplyState.Renumbered ρ base s t) (untied : s.Untied) :
    EndAlike (ApplyState.Renumbered ρ base) (fun m m' => m' = ρ.method m)
      ((addMethod id block).run s) ((addMethod (ρ.cls id) block).run t) := by
  refine (mapMethod block.line block.type s t same).bind fun type _ s' t' ran isType entered => ?_
  subst isType
  obtain ⟨-, rfl⟩ := mapped_ok ran
  refine .get ?_
  dsimp only
  have named := entered.namesake? untied id block
  have isNone : (namesake? t' (ρ.cls id) block).isNone = (namesake? s' id block).isNone := by
    have same := congrArg Option.isNone named
    rwa [Option.isNone_map, Option.isNone_map] at same
  rw [named, isNone, ← entered.classes.nextMethod]
  have added (decl : MethodDecl) := entered.evolve (entered.classes.addMethod id decl false)
    (.addMethod trivial s'.classes decl false)
  have finish : Agree (ApplyState.Renumbered ρ base) (fun m m' => m' = ρ.method m)
      (do ApplyM.touch id; pure s'.classes.nextMethod)
        (do ApplyM.touch (ρ.cls id); pure (ρ.method s'.classes.nextMethod)) :=
    (touch id).bindSame fun _ => .pure rfl
  refine EndAlike.bind (Q := fun _ _ => True) (.ok trivial (added _))
    fun _ _ u v ran _ entered => ?_
  cases ran
  split
  · refine (bindIfFree entered (entered.scope.bindMethod? entered.classes id _ ?_)).bind
      fun _ _ u v _ _ same => finish u v same
    simp [ClassSet.HasMethod, ClassSet.addMethod, ClassSet.nextMethod, ClassSet.modifyClass]
  · exact finish _ _ entered

/-- Carrying out a field line. -/
theorem applyField (block : ClassBlock) (id : ClassId) (l : FieldLine) (choice : Option FieldId)
    {s t : ApplyState} (same : ApplyState.Renumbered ρ base s t)
    (untied : l.mode = .add → s.scope.Untied s.classes) :
    EndAlike (ApplyState.Renumbered ρ base) (fun f f' => f' = f.map ρ.field)
      ((applyField block id l choice).run s)
      ((applyField block (ρ.cls id) l (choice.map ρ.field)).run t) := by
  have removes (f : FieldId) : SameApply ρ base (ApplyM.modifyClasses fun set => set.removeField f)
      (ApplyM.modifyClasses fun set => set.removeField (ρ.field f)) :=
    .modifyClasses (fun _ _ same => same.removeField f) fun set => .removeField set trivial
  unfold ApplyM.applyField
  cases mode : l.mode with
  | keep => exact .ok rfl same
  | remove =>
    refine (Agree.bind (assigned _ choice) fun f f' isField => ?_) s t same
    obtain ⟨rfl, -⟩ := isField
    exact (removes f).bindSame fun _ => (touch id).bindSame fun _ => .pure rfl
  | add =>
    refine (addField id l same (untied mode)).bind fun f f' u v _ isField left => ?_
    exact .ok (congrArg some isField) left

theorem rewriteAccess {m : MethodId} (known : base.HasMethod m) (block : MethodBlock) :
    SameApply ρ base (ApplyM.rewriteAccess m block) (ApplyM.rewriteAccess (ρ.method m) block) := by
  have rewrites (access : Access) : SameApply ρ base
      (ApplyM.modifyClasses fun set => set.modifyMethod m fun e => { e with access := access })
      (ApplyM.modifyClasses fun set => set.modifyMethod (ρ.method m) fun e => { e with
        access := access }) := by
    have evolves (set : ClassSet) : ClassSet.Evolves .everything set
        (set.modifyMethod m fun e => { e with access := access }) := by
      refine .modifyMethod ?_ (.inr trivial) (.inl ?_) set
      · exact fun _ => ⟨rfl, rfl, rfl, rfl⟩
      · exact fun _ => rfl
    refine .modifyClasses
      (fun set other same => same.modifyDecl m (fun e e' decl => ?_) (fun _ => ⟨rfl, rfl, rfl⟩)
      (evolves set)) evolves
    exact congrArg (fun d : MethodDecl => { d with access := access }) decl
  refine .read fun s t same => ?_
  dsimp only
  rw [same.classes.methodAccess, same.classes.methodDeclaredBy m (same.hasMethod known)]
  split
  · exact (rewrites _).bindSame fun _ => touch _
  · exact .pure rfl

/-- Carrying out a method block, apart from its body. -/
theorem applyMethod (owner : ClassBlock) (id : ClassId) (block : MethodBlock)
    {choice : Option MethodId} {s t : ApplyState} (same : ApplyState.Renumbered ρ base s t)
    (known : ∀ m, choice = some m → base.HasMethod m) (untied : block.mode = .add → s.Untied) :
    EndAlike (ApplyState.Renumbered ρ base)
      (fun x y => y = (x.1.map ρ.method, x.2.map (PendingBody.renumber ρ)))
      ((applyMethod owner id block choice).run s)
      ((applyMethod owner (ρ.cls id) block (choice.map ρ.method)).run t) := by
  have removes (m : MethodId) :
      SameApply ρ base (ApplyM.modifyClasses fun set => set.removeMethod m)
      (ApplyM.modifyClasses fun set => set.removeMethod (ρ.method m)) :=
    .modifyClasses (fun _ _ same => same.removeMethod m) fun set => .removeMethod set fun _ _ =>
      ⟨trivial, trivial⟩
  unfold ApplyM.applyMethod
  cases mode : block.mode with
  | add =>
    refine (addMethod id block same (untied mode)).bind fun m m' u v _ isMethod left => ?_
    subst isMethod
    exact .ok rfl left
  | remove =>
    refine (Agree.bind (assigned _ choice) fun m m' isMethod => .read fun s t same => ?_) s t same
    obtain ⟨rfl, chosen⟩ := isMethod
    have isBody : (t.classes.bodyOf (ρ.cls id) (ρ.method m)).getD (ρ.method m) =
        ρ.method ((s.classes.bodyOf id m).getD m) := by
      rw [same.classes.bodyOf]
      cases s.classes.bodyOf id m <;> rfl
    have known : s.classes.HasMethod ((s.classes.bodyOf id m).getD m) := by
      cases found : s.classes.bodyOf id m with
      | none => exact same.hasMethod (known m chosen)
      | some body => exact same.classes.formed.known_of_bodyOf found
    dsimp only
    rw [isBody, same.classes.methodDeclaredBy _ known]
    exact (removes _).bindSame fun _ => (touch _).bindSame fun _ => .pure rfl
  | keep =>
    refine (Agree.bind (assigned _ choice) fun m m' isMethod => ?_) s t same
    obtain ⟨rfl, chosen⟩ := isMethod
    exact (rewriteAccess (known m chosen) block).bindSame fun _ => .pure rfl

end SameApply

/-- The members of a class block come next. -/
inductive ApplyM.ComesToMembers (script : Script) (a : Assignment) (start : ApplyState) :
    ClassBlock → ClassChoice → ClassId → ApplyState → Prop where
  | intro {blocks block choice id s t u v} :
      (addClasses (script.classes.zip a)).run start = .ok blocks s →
      MapComesTo (fun e => applyClass e.1 e.2) blocks s (block, choice) t → choice.cls = some id →
      block.mode ≠ .remove → (block.supers.forM (applySuper block.line id)).run t = .ok () u →
      (block.interfaces.forM (applyInterface block.line id)).run u = .ok () v →
      ComesToMembers script a start block choice id v

/-- The states in which weak names of members are looked up while a script is applied. -/
inductive ApplyM.LooksUp (script : Script) (a : Assignment) (start : ApplyState) :
    ApplyState → Prop where
  /-- A field is added. -/
  | field {block choice id s l c t} : ComesToMembers script a start block choice id s →
      MapComesTo (fun e => applyField block id e.1 e.2) (block.fields.zip choice.fields) s
        (l, c) t →
      l.mode = .add → LooksUp script a start t
  /-- A method is added. -/
  | method {block choice id s fields t m c u} : ComesToMembers script a start block choice id s →
      ((block.fields.zip choice.fields).mapM fun e => applyField block id e.1 e.2).run s =
        .ok fields t →
      MapComesTo (fun e => applyMethod block id e.1 e.2) (block.methods.zip choice.methods) t
        (m, c) u →
      m.mode = .add → LooksUp script a start u
  /-- All is done but the bodies. -/
  | bodies {applied s} : (declare script a).run start = .ok applied s → LooksUp script a start s

/-- No name is tied where members of a class block come in. -/
structure ApplyM.MembersUntied (block : ClassBlock) (choice : ClassChoice) (id : ClassId)
    (s : ApplyState) : Prop where
  field : ∀ l c t, MapComesTo (fun e => applyField block id e.1 e.2)
    (block.fields.zip choice.fields) s (l, c) t → l.mode = .add → t.scope.Untied t.classes
  method : ∀ fields t m c u,
    ((block.fields.zip choice.fields).mapM fun e => applyField block id e.1 e.2).run s =
      .ok fields t →
    MapComesTo (fun e => applyMethod block id e.1 e.2) (block.methods.zip choice.methods) t
      (m, c) u → m.mode = .add → u.Untied

namespace SameApply

open ApplyM

variable {ρ : Renumbering} {base : ClassSet}

/-- Carrying out a class block, apart from its method bodies. -/
theorem applyClass (block : ClassBlock) {choice : ClassChoice} (known : choice.Known base)
    {s t : ApplyState} (same : ApplyState.Renumbered ρ base s t)
    (untied : ∀ id u v, choice.cls = some id → block.mode ≠ .remove →
      (block.supers.forM (ApplyM.applySuper block.line id)).run s = .ok () u →
      (block.interfaces.forM (ApplyM.applyInterface block.line id)).run u = .ok () v →
        MembersUntied block choice id v) :
    EndAlike (ApplyState.Renumbered ρ base)
      (fun x y => y = (x.1.renumber ρ, x.2.map (PendingBody.renumber ρ)))
        ((applyClass block choice).run s)
      ((applyClass block (choice.renumber ρ)).run t) := by
  unfold ApplyM.applyClass
  refine (assigned block.describe choice.cls s t same).bind fun id id' s' t' ran isClass left => ?_
  obtain ⟨rfl, chosen⟩ := isClass
  obtain ⟨-, rfl⟩ := run_assigned_ok ran
  split
  · refine (removeClass id _ _ left).bind fun _ _ u v _ _ left => .ok rfl left
  rename_i kept
  refine (Agree.forMSame (fun l _ => applySuper block.line id l) _ _ left).bind
    fun _ _ u u' supers _ left => ?_
  refine (Agree.forMSame (fun l _ => applyInterface block.line id l) _ _ left).bind
    fun _ _ v v' interfaces _ left => ?_
  have members := untied id u v chosen kept supers interfaces
  simp only [ClassChoice.renumber, List.zip_map_right]
  refine (EndAlike.mapM (ν := Option.map ρ.field) (fun e u v comes same => ?_) left).bind
    fun fs fs' w w' fields isFields left => ?_
  · exact applyField block id e.1 e.2 same (members.field e.1 e.2 u comes)
  subst isFields
  refine (EndAlike.mapM (ν := fun x => (x.1.map ρ.method, x.2.map (PendingBody.renumber ρ)))
    (fun e u v comes same => ?_) left).bind
    fun ms ms' w w' _ isMethods left => ?_
  · refine applyMethod block id e.1 same
      (fun m isMethod => ?_) (members.method fs w e.1 e.2 u fields comes)
    exact known.methods m (isMethod ▸ (List.of_mem_zip comes.mem).2)
  subst isMethods
  refine .ok ?_ left
  simp [List.flatMap_map, List.map_flatMap]

/-- Carrying out all blocks of a script, apart from the method bodies. -/
theorem declare (script : Script) {a : Assignment} (known : ∀ choice ∈ a, choice.Known base)
    {s t : ApplyState} (same : ApplyState.Renumbered ρ base s t)
    (untied : ∀ u, LooksUp script a s u → u.Untied) :
    EndAlike (ApplyState.Renumbered ρ base)
      (fun xs ys => ys = xs.map fun x => (x.1.renumber ρ, x.2.map (PendingBody.renumber ρ)))
      ((declare script a).run s) ((declare script (a.renumber ρ)).run t) := by
  unfold ApplyM.declare Assignment.renumber
  rw [List.zip_map_right]
  refine (addClasses (fun e member => known e.2 (List.of_mem_zip member).2) s t same).bind
    fun blocks _ u v added isBlocks left => ?_
  obtain ⟨rfl, known⟩ := isBlocks
  refine EndAlike.mapM (fun e u v comes same => ?_) left
  refine applyClass e.1 (known e comes.mem) same fun id w x chosen kept supers interfaces => ?_
  have members := ComesToMembers.intro added comes chosen kept supers interfaces
  constructor
  · exact fun l c y comes isAdded => (untied y (.field members comes isAdded)).scope
  · exact fun fields y m c z ran comes isAdded => untied z (.method members ran comes isAdded)

end SameApply

/-- Two states differ in numbers only, and no name is tied in them. -/
def ApplyState.RenumberedUntied (ρ : Renumbering) (base : ClassSet) (s t : ApplyState) : Prop :=
  ApplyState.Renumbered ρ base s t ∧ s.scope.Untied s.classes

/-- Names stay untied where members stay in the classes that have them. -/
theorem Scope.Untied.ofMembers {set later : ClassSet} {scope : Scope} (untied : scope.Untied set)
    (declares : ∀ m, (later.methodAt m).declaredBy = (set.methodAt m).declaredBy)
    (owners : ∀ m, (later.methodAt m).owners = (set.methodAt m).owners)
    (fields : ∀ f, later.fieldAt f = set.fieldAt f) : scope.Untied later := by
  obtain ⟨one, two⟩ := untied
  constructor
  · simpa only [declares, owners] using one
  · simpa only [fields] using two

namespace ApplyM

open SameApply

variable {ρ : Renumbering} {base : ClassSet}

theorem untied_touch (id : ClassId) :
    Preserves (fun s : ApplyState => s.scope.Untied s.classes) (touch id) :=
  .modify fun _ untied => untied.ofMembers (fun _ => rfl) (fun _ => rfl) fun _ => rfl

theorem untied_replaceCode (m : MethodId) (code : Code) :
    Preserves (fun s : ApplyState => s.scope.Untied s.classes)
    (modifyClasses fun set => set.modifyMethod m fun e => { e with code := some code }) := by
  refine .modify fun s untied => untied.ofMembers ?_ ?_ fun _ => rfl
  · exact s.classes.methodAt_modifyMethod_same (·.declaredBy) (f := fun e => { e with
      code := some code }) (fun _ => rfl) m
  · exact s.classes.methodAt_modifyMethod_same (·.owners) (f := fun e => { e with
      code := some code }) (fun _ => rfl) m

theorem replaceCode_alike (m : MethodId) (code : Code) : SameApply ρ base
    (modifyClasses fun set => set.modifyMethod m fun e => { e with code := some code })
    (modifyClasses fun set => set.modifyMethod (ρ.method m) fun e => { e with
      code := some code }) := by
  have evolves (set : ClassSet) : ClassSet.Evolves .everything set
      (set.modifyMethod m fun e => { e with code := some code }) := by
    refine .modifyMethod ?_ (.inl ?_) (.inr trivial) set
    · exact fun _ => ⟨rfl, rfl, rfl, rfl⟩
    · exact fun _ => rfl
  refine .modifyClasses
    (fun set other same => same.modifyDecl m (fun e e' decl => ?_) (fun _ => ⟨rfl, rfl, rfl⟩)
    (evolves set)) evolves
  exact congrArg (fun d : MethodDecl => { d with code := some code }) decl

/-- The lines of a block change a body in the same way. -/
theorem runEdit_alike {s t : ApplyState} (related : ApplyState.RenumberedUntied ρ base s t)
    {m m' : EditM Unit} (edits : SameEdit ρ s.classes m m') (className method : String)
    (nextLabel : Nat) :
    EndAlike (ApplyState.RenumberedUntied ρ base) (fun e e' => ∀ code, e'.apply code = e.apply code)
      ((runEdit className method nextLabel m).run s)
        ((runEdit className method nextLabel m').run t) := by
  obtain ⟨same, untied⟩ := related
  have start : BodyEdit.Renumbered ρ s.classes { names := ⟨s.scope, nextLabel⟩ }
      { names := ⟨t.scope, nextLabel⟩ } :=
    ⟨⟨⟨same.scope, untied⟩, rfl⟩, rfl, rfl, rfl, rfl, rfl, rfl⟩
  refine .get ?_
  rcases (edits _ _ start).cases with
    ⟨_, _, e, e', ran, ran', -, left⟩ | ⟨fault, e, e', ran, ran', left⟩
  · rw [ran, ran']
    exact .ok left.apply ⟨same.rebind left.names.scope.1, left.names.scope.2⟩
  · rw [ran, ran']
    cases fault <;> exact .error ⟨same.rebind left.names.scope.1, left.names.scope.2⟩

theorem buildBody_alike (id : MethodId) (block : MethodBlock) :
    Agree (ApplyState.RenumberedUntied ρ base) (fun x y => y = x) (buildBody id block)
      (buildBody (ρ.method id) block) := by
  refine .get fun s t related => ?_
  obtain ⟨same, untied⟩ := related
  dsimp only
  rw [same.classes.methodDesc, same.classes.methodName]
  split
  · exact .error ⟨same, untied⟩
  rename_i type _
  have alike : BodyContext.Renumbered ρ ⟨s.classes, id, type⟩ ⟨t.classes, ρ.method id, type⟩ :=
    ⟨same.classes, rfl, rfl⟩
  have edits := Agree.forMSame fun l (_ : l ∈ block.insns) => alike.addLine l
  refine (runEdit_alike ⟨same, untied⟩ edits _ _ _).bind fun edit edit' u v _ edited left => ?_
  rw [edited]
  refine (Agree.bindSame (SameApply.checked _ _ _) fun code => ?_) u v left
  exact (replaceCode_alike id code).and_preserves (untied_replaceCode id code)

theorem changeBody_alike (cls : ClassId) (handle : MethodId) (block : MethodBlock) :
    Agree (ApplyState.RenumberedUntied ρ base) (fun x y => y = x) (changeBody cls handle block)
      (changeBody (ρ.cls cls) (ρ.method handle) block) := by
  refine .get fun s t related => ?_
  obtain ⟨same, untied⟩ := related
  dsimp only
  rw [same.classes.bodyOf, same.classes.methodName]
  cases found : s.classes.bodyOf cls handle with
  | none => exact .error ⟨same, untied⟩
  | some body =>
    have known := same.classes.formed.known_of_bodyOf found
    dsimp only [Option.map_some]
    rw [same.classes.methodDesc, same.classes.methodCode, same.classes.methodName,
      same.scope.methodMatch?, same.classes.name, same.classes.methodDeclaredBy body known]
    split
    · exact .error ⟨same, untied⟩
    rename_i type _
    split
    · exact .error ⟨same, untied⟩
    rename_i code _
    have alike : BodyContext.Renumbered ρ ⟨s.classes, body, type⟩ ⟨t.classes,
        ρ.method body, type⟩ :=
      ⟨same.classes, rfl, rfl⟩
    have edits := alike.editLines code.insns ((s.scope.methodMatch? body).getD {}) block.insns 0
    refine (runEdit_alike ⟨same, untied⟩ edits _ _ _).bind fun edit edit' u v _ edited left => ?_
    rw [edited]
    split
    · refine (Agree.bindSame (SameApply.checked _ _ _) fun code => ?_) u v left
      refine ((replaceCode_alike body code).and_preserves (untied_replaceCode body code)).bindSame
        fun _ => ?_
      refine ((SameApply.touch _).and_preserves (untied_touch _)).bindSame fun _ => ?_
      exact (SameApply.count _).and_preserves (.modify fun _ untied => untied)
    · exact .ok rfl left

theorem applyBody_alike (p : PendingBody) :
    Agree (ApplyState.RenumberedUntied ρ base) (fun x y => y = x) (applyBody p)
      (applyBody (p.renumber ρ)) := by
  cases p with
  | added id block => exact buildBody_alike id block
  | matched cls handle block =>
    unfold PendingBody.renumber applyBody
    dsimp only
    split
    · exact .pure rfl
    · exact changeBody_alike cls handle block

/-- A script is carried out alike if no name is tied where names of members are looked up. -/
theorem applyAll_alike (script : Script) {a : Assignment} (known : ∀ choice ∈ a, choice.Known base)
    {s t : ApplyState} (same : ApplyState.Renumbered ρ base s t)
    (untied : ∀ u, LooksUp script a s u → u.Untied) :
    EndAlike (ApplyState.Renumbered ρ base) (fun x y => y = x.renumber ρ)
      ((applyAll script a).run s)
      ((applyAll script (a.renumber ρ)).run t) := by
  rw [applyAll_eq, applyAll_eq]
  refine (SameApply.declare script known same untied).bind
    fun applied _ u v declared isApplied left => ?_
  subst isApplied
  have pending : (applied.map
      fun x => (x.1.renumber ρ, x.2.map (PendingBody.renumber ρ))).flatMap Prod.snd =
      (applied.flatMap Prod.snd).map (PendingBody.renumber ρ) := by
    rw [List.flatMap_map, List.map_flatMap]
  have bodies : Agree (ApplyState.RenumberedUntied ρ base) (fun _ _ => True)
    ((applied.flatMap Prod.snd).forM applyBody)
      (((applied.flatMap Prod.snd).map (PendingBody.renumber ρ)).forM applyBody) := by
    refine .forM (forall₂_map _) fun p p' isBody => ?_
    subst isBody
    exact (applyBody_alike p).mono fun _ _ _ => trivial
  have result : (applied.map
      fun x => (x.1.renumber ρ, x.2.map (PendingBody.renumber ρ))).map Prod.fst =
      Assignment.renumber ρ (applied.map Prod.fst) := by
    rw [Assignment.renumber, List.map_map, List.map_map]
    rfl
  rw [pending, result]
  have carried := bodies u v ⟨left, (untied u (.bodies declared)).scope⟩
  refine (carried.mono (fun _ _ related => related.1) fun _ _ h => h).bind
    fun _ _ w x _ _ left => ?_
  exact .ok rfl left

end ApplyM

/-- What applying gives differs in numbers only. -/
structure Applied.Renumbered (ρ : Renumbering) (done done' : Applied) : Prop where
  classes : ClassSet.Renumbered ρ done.classes done'.classes
  scope : Scope.Renumbered ρ done.classes done.scope done'.scope
  assignment : done'.assignment = done.assignment.renumber ρ
  summary : done'.summary = done.summary

/-- Applying a script gives the same in both sets. -/
theorem ClassSet.Renumbered.apply {ρ : Renumbering} {set other : ClassSet}
    (same : ClassSet.Renumbered ρ set other) (script : Script) {r r' : Resolution}
    (alike : Resolution.Renumbered ρ set r r')
    (untied : ∀ s, ApplyM.LooksUp script r.assignment ⟨set, r.scope, {}⟩ s → s.Untied) :
    SameEnd (Applied.Renumbered ρ) (set.apply script r) (other.apply script r') := by
  have start : ApplyState.Renumbered ρ set ⟨set, r.scope, {}⟩ ⟨other, r'.scope, {}⟩ :=
    ⟨same, alike.scope, rfl, .refl _ _⟩
  unfold ClassSet.apply
  rw [alike.assignment]
  rcases (ApplyM.applyAll_alike script alike.known start untied).cases with
    ⟨a, _, s, t, ran, ran', rfl, left⟩ | ⟨e, s, t, ran, ran', -⟩
  · rw [ran, ran']
    exact .ok ⟨left.classes, left.scope, rfl, left.summary⟩
  · rw [ran, ran']
    exact .error e

end JvmPatch
