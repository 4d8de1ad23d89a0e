import JvmPatch.Proofs.Apply.Bodies
import JvmPatch.Proofs.ClassSet.Growth
import Mathlib.Data.List.Pairwise

/-! What applying a script leaves alone. A block is carried out in the class that it is assigned,
but a method that is seen through a class can be declared by another one. Only where each method
block stays with what its own class declares do the classes keep what no block is assigned to. -/

set_option autoImplicit false

namespace JvmPatch

open ApplyM

/-- Whether a class is assigned to one of the class blocks. -/
def Assignment.Assigns (a : Assignment) (id : ClassId) : Prop := ∃ choice ∈ a, choice.cls = some id

namespace MethodTarget

def name (set : ClassSet) (t : MethodTarget) : String := (set.methodAt t.handle).name

def desc (set : ClassSet) (t : MethodTarget) : String := (set.methodAt t.handle).desc

/-- Whether the block changes the body of the method. -/
def rewrites (t : MethodTarget) : Bool := t.edited && t.block.changesBody

/-- Whether two targets are methods of one class with one signature. -/
def SameMethod (set : ClassSet) (t u : MethodTarget) : Prop :=
  t.cls = u.cls ∧ t.name set = u.name set ∧ t.desc set = u.desc set

end MethodTarget

/-- Every method block stays with what its own class declares. -/
structure Contained (set : ClassSet) (a : Assignment) (ts : List MethodTarget) : Prop where
  /-- A class declares the methods itself that are removed from it and whose bodies are changed. -/
  declared : ∀ t ∈ ts, t.removes = true ∨ t.rewrites = true →
    set.Declares t.cls (t.name set) (t.desc set)
  /-- No block removes or changes a method that another one removes. -/
  once : ts.Pairwise fun t u =>
    t.removes = true ∧ (u.removes = true ∨ u.rewrites = true) ∨
      t.rewrites = true ∧ u.removes = true → ¬t.SameMethod set u
  /-- The flags of a method change only if an assigned class declares it. -/
  flags : ∀ t ∈ ts, t.edited = true → a.Assigns (set.methodAt t.handle).declaredBy ∨
    t.block.accessOver (set.methodAt t.handle).access = (set.methodAt t.handle).access

namespace ClassSet

/-- A class has its header, its lists of members and all its members as before. -/
structure ClassKept (before after : ClassSet) (id : ClassId) : Prop where
  lists : SameLists (before.classAt id) (after.classAt id)
  fieldDecls : ∀ f ∈ (before.classAt id).fields,
    (after.fieldAt f).toFieldDecl = (before.fieldAt f).toFieldDecl
  methodDecls : ∀ m ∈ (before.classAt id).methods,
    (after.methodAt m).toMethodDecl = (before.methodAt m).toMethodDecl

/-- New classes and those that are assigned may be edited with all that they declare. -/
def Permit.within (set : ClassSet) (a : Assignment) (drop : ClassId → String → String → Prop) :
    Permit where
  cls id := ¬set.HasClass id ∨ a.Assigns id
  access m := ¬set.HasMethod m ∨ ¬set.HasClass (set.methodAt m).declaredBy ∨
    a.Assigns (set.methodAt m).declaredBy
  code m := ¬set.HasMethod m ∨ ¬set.HasClass (set.methodAt m).declaredBy ∨
    a.Assigns (set.methodAt m).declaredBy
  drop := drop

/-- What is kept of a class that may not be edited, nor any of its methods. -/
theorem classKept_of_forbidden {set later : ClassSet} {may : Permit} {id : ClassId}
    (wellFormed : set.WellFormed) (evolves : Evolves may set later) (known : set.HasClass id)
    (cls : ¬may.cls id)
    (methods : ∀ m ∈ (set.classAt id).methods, ¬may.access m ∧ ¬may.code m) :
    set.ClassKept later id := by
  refine ⟨evolves.lists id known cls, fun f member => ?_, fun m member => ?_⟩
  · exact (evolves.field f (wellFormed.fields id f member).1).1
  · have has := (wellFormed.methods id m member).1
    obtain ⟨name, desc, exceptions, -⟩ := evolves.signature m has
    have access := evolves.access m has (methods m member).1
    have code := evolves.code m has (methods m member).2
    cases before : (set.methodAt m).toMethodDecl
    cases after : (later.methodAt m).toMethodDecl
    simp only [before, after] at name desc exceptions access code
    rw [name, desc, exceptions, access, code]

/-- What is kept of a class that may not be edited. -/
theorem classKept_of_evolves {set later : ClassSet} {a : Assignment}
    {drop : ClassId → String → String → Prop} {id : ClassId} (wellFormed : set.WellFormed)
    (evolves : Evolves (.within set a drop) set later) (known : set.HasClass id)
    (unassigned : ¬a.Assigns id) : set.ClassKept later id := by
  have forbidden : ¬(¬set.HasClass id ∨ a.Assigns id) := by
    rintro (unknown | assigned)
    · exact unknown known
    · exact unassigned assigned
  refine classKept_of_forbidden wellFormed evolves known forbidden fun m member => ?_
  obtain ⟨has, owner⟩ := wellFormed.methods id m member
  have kept : ¬(¬set.HasMethod m ∨ ¬set.HasClass (set.methodAt m).declaredBy ∨
      a.Assigns (set.methodAt m).declaredBy) := by
    rw [owner]
    rintro (unknown | permitted)
    · exact unknown has
    · exact forbidden permitted
  exact ⟨kept, kept⟩

theorem bodyOf_of_declaredMethod? {set : ClassSet} {cls : ClassId} {handle found : MethodId}
    (first : set.declaredMethod? (set.methodAt handle).name (set.methodAt handle).desc cls =
      some found) : set.bodyOf cls handle = some found := by
  have chain : ∃ rest, set.superChain cls = cls :: rest := by
    rw [superChain, superChainFrom, if_neg (by simp)]
    cases set.superOf? cls with
    | none => exact ⟨[], rfl⟩
    | some next => exact ⟨_, rfl⟩
  obtain ⟨rest, chain⟩ := chain
  rw [bodyOf, chain, List.findSome?_cons, first]

/-- A method that a class declares stands behind every method of its signature that is seen through
the class. -/
theorem bodyOf_of_declares {set : ClassSet} {cls : ClassId} {handle : MethodId}
    (declares : set.Declares cls (set.methodAt handle).name (set.methodAt handle).desc) :
    ∃ m ∈ (set.classAt cls).methods, set.bodyOf cls handle = some m ∧
      (set.methodAt m).name = (set.methodAt handle).name ∧
      (set.methodAt m).desc = (set.methodAt handle).desc := by
  obtain ⟨m, member, name, desc⟩ := declares
  have isSome : (set.declaredMethod? (set.methodAt handle).name (set.methodAt handle).desc
      cls).isSome = true := by
    rw [declaredMethod?, List.find?_isSome]
    exact ⟨m, member, by simp [MethodEntry.hasSignature, name, desc]⟩
  obtain ⟨found, first⟩ := Option.isSome_iff_exists.1 isSome
  have body := bodyOf_of_declaredMethod? first
  obtain ⟨name', desc'⟩ := bodyOf_eq_some body
  exact ⟨found, List.mem_of_find?_eq_some first, body, name', desc'⟩

/-- The methods that some targets remove. -/
def Dropped (set : ClassSet) (ts : List MethodTarget) (cls : ClassId) (name desc : String) : Prop :=
  ∃ t ∈ ts, t.removes = true ∧ t.cls = cls ∧ t.name set = name ∧ t.desc set = desc

end ClassSet

section

variable {set : ClassSet} {a : Assignment} {s t : ApplyState}
  {drop drop' : ClassId → String → String → Prop}

theorem Changed.dropMore (changed : Changed (.within set a drop) s t)
    (more : ∀ cls name desc, drop cls name desc → drop' cls name desc) :
    Changed (.within set a drop') s t :=
  ⟨changed.classes.mono (fun _ h => h) (fun _ h => h) (fun _ h => h) more, changed.gains,
    changed.bodies⟩

theorem ChangesAt.dropMore {α : Type} {m : ApplyM α}
    (changes : ChangesAt (.within set a drop) s m)
    (more : ∀ cls name desc, drop cls name desc → drop' cls name desc) :
    ChangesAt (.within set a drop') s m := by
  rw [ChangesAt] at changes ⊢
  split at changes
  · exact changes.dropMore more
  · exact ⟨changes.1.dropMore more, changes.2⟩

/-- The classes that may be edited have led from the first class set to a state. -/
def Reaches (set : ClassSet) (a : Assignment) (s : ApplyState) : Prop :=
  ClassSet.Evolves (.within set a fun _ _ _ => True) set s.classes

theorem Reaches.step (reaches : Reaches set a s) (changed : Changed (.within set a drop) s t) :
    Reaches set a t :=
  reaches.trans (changed.dropMore fun _ _ _ _ => trivial).classes

/-- What is removed is declared by the class that it is removed from. -/
def Removable (set : ClassSet) (s : ApplyState) (ts : List MethodTarget) : Prop :=
  ∀ t ∈ ts, t.removes = true → s.classes.Declares t.cls (t.name set) (t.desc set)

/-- The flags that some targets change are those of methods that may be edited. -/
def KeepsFlags (set : ClassSet) (a : Assignment) (ts : List MethodTarget) : Prop :=
  ∀ t ∈ ts, t.edited = true → a.Assigns (set.methodAt t.handle).declaredBy ∨
    t.block.accessOver (set.methodAt t.handle).access = (set.methodAt t.handle).access

theorem applyMethod_within {id : ClassId} {block : MethodBlock} {choice : Option MethodId}
    (wellFormed : set.WellFormed) (reaches : Reaches set a s)
    (permitted : ¬set.HasClass id ∨ a.Assigns id) (owner : ClassBlock)
    (known : ∀ handle, choice = some handle → set.HasMethod handle)
    (removable : Removable set s (block.target id .keep choice))
    (flags : KeepsFlags set a (block.target id .keep choice)) :
    ChangesAt (.within set a (set.Dropped (block.target id .keep choice))) s
      (applyMethod owner id block choice) := by
  refine .applyMethod permitted owner (fun mode handle method chosen isMethod cls member => ?_)
    fun mode handle chosen => ?_
  · subst chosen
    have isTarget : ⟨id, handle, block, .keep⟩ ∈ block.target id .keep (some handle) := by
      simp [MethodBlock.target, mode]
    have removes : (⟨id, handle, block, .keep⟩ : MethodTarget).removes = true := by
      simp [MethodTarget.removes, mode]
    obtain ⟨name, desc, -, -⟩ := reaches.signature handle (known handle rfl)
    have declares := removable _ isTarget removes
    change s.classes.Declares id (set.methodAt handle).name (set.methodAt handle).desc at declares
    rw [← name, ← desc] at declares
    obtain ⟨m, own, body, name', desc'⟩ := ClassSet.bodyOf_of_declares declares
    rw [body, Option.getD_some] at isMethod
    subst isMethod
    have later := reaches.wellFormed wellFormed
    have same : cls = id := (later.methods cls m member).2.symm.trans (later.methods id m own).2
    subst same
    refine ⟨permitted, _, isTarget, removes, rfl, ?_, ?_⟩
    · rw [name', name]
      rfl
    · rw [desc', desc]
      rfl
  · subst chosen
    have isTarget : ⟨id, handle, block, .keep⟩ ∈ block.target id .keep (some handle) := by
      simp [MethodBlock.target, mode]
    have edited : (⟨id, handle, block, .keep⟩ : MethodTarget).edited = true := by
      simp [MethodTarget.edited, mode]
    rcases flags _ isTarget edited with assigned | same
    · exact .inl (.inr (.inr assigned))
    · by_cases allowed : (ClassSet.Permit.within set a fun _ _ _ => True).access handle
      · exact .inl allowed
      · rw [reaches.access handle (known handle rfl) allowed]
        exact .inr same

/-- Steps that each remove what their own targets remove do not get in the way of each other. -/
theorem ChangesAt.mapM_within {α β : Type} {f : α → ApplyM β} {targets : α → List MethodTarget}
    {xs : List α} (wellFormed : set.WellFormed)
    (step : ∀ x ∈ xs, ∀ s, Reaches set a s → Removable set s (targets x) →
      ChangesAt (.within set a (set.Dropped (targets x))) s (f x))
    (once : (xs.flatMap targets).Pairwise fun t u => t.removes = true → u.removes = true →
      ¬t.SameMethod set u)
    (reaches : Reaches set a s) (removable : Removable set s (xs.flatMap targets)) :
    ChangesAt (.within set a (set.Dropped (xs.flatMap targets))) s (xs.mapM f) := by
  induction xs generalizing s with
  | nil => exact .pure _ s _
  | cons x xs ih =>
    rw [List.flatMap_cons] at once removable ⊢
    obtain ⟨-, onceRest, between⟩ := List.pairwise_append.1 once
    have one := step x List.mem_cons_self s reaches
      fun t member => removable t (List.mem_append_left _ member)
    rw [List.mapM_cons]
    refine (one.dropMore ?_).bind fun y t ran => ?_
    · rintro cls name desc ⟨u, member, rest⟩
      exact ⟨u, List.mem_append_left _ member, rest⟩
    · have changed := one.ok ran
      have rest := ih (fun z member => step z (.tail _ member)) onceRest (reaches.step changed)
        fun u member removes => by
          refine changed.classes.declares (reaches.wellFormed wellFormed) _ _ _ ?_
            (removable u (List.mem_append_right _ member) removes)
          rintro ⟨t, inside, removes', same⟩
          exact between t inside u member removes' removes same
      refine (rest.dropMore ?_).bind fun ys u _ => .pure _ u _
      rintro cls name desc ⟨u, member, rest⟩
      exact ⟨u, List.mem_append_right _ member, rest⟩

/-- What is known of a class block that is carried out: its class may be edited, its fields are
those of its class, and its methods are known. -/
structure Fitting (set : ClassSet) (a : Assignment) (e : ClassBlock × ClassChoice) : Prop where
  permitted : ∀ id, e.2.cls = some id → ¬set.HasClass id ∨ a.Assigns id
  fields : ∀ id, e.2.cls = some id → ∀ f, some f ∈ e.2.fields →
    set.HasField f ∧ (set.fieldAt f).declaredBy = id
  methods : ∀ m, some m ∈ e.2.methods → set.HasMethod m

theorem ChangesAt.mapM {α β : Type} {may : ClassSet.Permit} {f : α → ApplyM β} {xs : List α}
    (each : ∀ x ∈ xs, ∀ t, Changed may s t → ChangesAt may t (f x)) :
    ChangesAt may s (xs.mapM f) := by
  induction xs generalizing s with
  | nil => exact .pure may s _
  | cons x xs ih =>
    have first := each x List.mem_cons_self s (.refl may s)
    rw [List.mapM_cons]
    exact first.bind fun y t ran =>
      (ih fun z member u reached => each z (.tail _ member) u ((first.ok ran).trans reached)).bind
        fun ys u _ => .pure may u _

theorem applyClass_within {e : ClassBlock × ClassChoice} (wellFormed : set.WellFormed)
    (reaches : Reaches set a s) (fitting : Fitting set a e)
    (once : (carriedTargets e).Pairwise fun t u => t.removes = true → u.removes = true →
      ¬t.SameMethod set u)
    (removable : Removable set s (carriedTargets e)) (flags : KeepsFlags set a (carriedTargets e)) :
    ChangesAt (.within set a (set.Dropped (carriedTargets e))) s (applyClass e.1 e.2) := by
  obtain ⟨block, choice⟩ := e
  refine (ChangesAt.assigned _ s _ _).bind fun id t found => ?_
  obtain ⟨chosen, rfl⟩ := run_assigned_ok found
  have permitted := fitting.permitted id chosen
  change choice.cls = some id at chosen
  simp only [carriedTargets, chosen] at once removable flags ⊢
  split
  · exact (Changes.removeClass permitted t).bind fun _ u _ => .pure _ u _
  rw [if_neg ‹_›] at once removable flags
  have none : ∀ cls name desc, False →
      set.Dropped (methodTargets id block choice) cls name desc := fun _ _ _ h => h.elim
  have supers : ChangesAt (.within set a fun _ _ _ => False) t
      (block.supers.forM (applySuper block.line id)) :=
    (Changes.forM fun l _ => .applySuper permitted _ l) t
  refine (supers.dropMore none).bind fun _ u₁ ran₁ => ?_
  have interfaces : ChangesAt (.within set a fun _ _ _ => False) u₁
      (block.interfaces.forM (applyInterface block.line id)) :=
    (Changes.forM fun l _ => .applyInterface permitted _ l) u₁
  refine (interfaces.dropMore none).bind fun _ u₂ ran₂ => ?_
  have changed₂ := (supers.ok ran₁).trans (interfaces.ok ran₂)
  have fields : ChangesAt (.within set a fun _ _ _ => False) u₂
      ((block.fields.zip choice.fields).mapM fun e => applyField block id e.1 e.2) := by
    refine .mapM fun e member v changed => .applyField permitted block e.1 fun f isField => ?_
    have inside : some f ∈ choice.fields := isField ▸ (List.of_mem_zip member).2
    obtain ⟨known, owner⟩ := fitting.fields id chosen f inside
    rw [((reaches.step changed₂).step changed |>.field f known).2, owner]
    exact permitted
  refine (fields.dropMore none).bind fun fs u₃ ran₃ => ?_
  have changed₃ := changed₂.trans (fields.ok ran₃)
  refine ChangesAt.bind ?_ fun ms u₄ _ => .pure _ u₄ _
  have step := reaches.step changed₃
  unfold methodTargets at once removable flags ⊢
  refine ChangesAt.mapM_within wellFormed (fun e member v reached removable' => ?_) once step
    fun t member removes => ?_
  · refine applyMethod_within wellFormed reached permitted block
      (fun handle isMethod => ?_) removable'
      fun t inside => flags t (List.mem_flatMap.2 ⟨e, member, inside⟩)
    exact fitting.methods handle (isMethod ▸ (List.of_mem_zip member).2)
  · exact changed₃.classes.declares (reaches.wellFormed wellFormed) _ _ _ (fun h => h)
      (removable t member removes)

end

theorem mem_of_fills {α : Type} {mode : Mode} {candidates : List α} {x : α}
    (fills : Fills mode (some candidates) (some x)) : x ∈ candidates := by
  cases mode with
  | add => cases fills
  | keep | remove =>
    obtain ⟨y, member, same⟩ := fills
    exact Option.some.inj same ▸ member

theorem ClassSet.FullChoice.candidate_of_assigned {set : ClassSet} {block : ClassBlock}
    {choice : ClassChoice} {id : ClassId} (full : set.FullChoice block choice)
    (chosen : choice.cls = some id) : id ∈ set.candidates := by
  have fills := full.cls
  rw [chosen] at fills
  exact mem_of_fills fills

theorem ClassSet.FullChoice.methodCandidate {set : ClassSet} {block : ClassBlock}
    {choice : ClassChoice} {m : MethodId} (full : set.FullChoice block choice)
    (member : some m ∈ choice.methods) :
    ∃ id, choice.cls = some id ∧ m ∈ set.methodCandidates id := by
  obtain ⟨b, fills⟩ := exists_of_mem_right full.methods member
  cases chosen : choice.cls with
  | none =>
    rw [chosen] at fills
    cases unassigned_of_fills fills
  | some id =>
    rw [chosen] at fills
    exact ⟨id, rfl, mem_of_fills fills⟩

theorem ClassSet.FullChoice.hasMethod {set : ClassSet} {block : ClassBlock} {choice : ClassChoice}
    {m : MethodId} (full : set.FullChoice block choice) (wellFormed : set.WellFormed)
    (member : some m ∈ choice.methods) : set.HasMethod m := by
  obtain ⟨id, -, candidate⟩ := full.methodCandidate member
  exact wellFormed.views id m (List.mem_filter.1 candidate).1

/-- What the blocks of a full assignment are when the classes have been added. -/
theorem fitting_of_prepared {set : ClassSet} {a : Assignment} {e e' : ClassBlock × ClassChoice}
    (wellFormed : set.WellFormed) (full : set.FullChoice e.1 e.2) (inside : e.2 ∈ a)
    (prepared : Prepared set e e') : Fitting set a e' := by
  by_cases mode : e.1.mode = .add
  · obtain ⟨id, isNew, new⟩ := prepared.added mode
    obtain ⟨-, noFields, noMethods⟩ := unassigned_of_added full mode
    constructor
    · intro id' chosen
      obtain rfl := Option.some.inj (isNew.symm.trans chosen)
      exact .inl new
    · intro id' chosen f member
      rw [prepared.fields] at member
      cases noFields _ member
    · intro m member
      rw [prepared.methods] at member
      cases noMethods _ member
  · rw [show e' = (e'.1, e'.2) from rfl, prepared.kept mode]
    constructor
    · exact fun id chosen => .inr ⟨e.2, inside, chosen⟩
    · intro id chosen f member
      obtain ⟨l, fills⟩ := exists_of_mem_right full.fields member
      rw [show e.2.cls = some id from chosen] at fills
      exact wellFormed.fields id f (List.mem_filter.1 (mem_of_fills fills)).1
    · exact fun m member => full.hasMethod wellFormed member

/-- What the declarations of a script may edit. -/
theorem declare_within {set : ClassSet} {script : Script} {a : Assignment} {s t : ApplyState}
    {applied : List (ClassChoice × List PendingBody)} (wellFormed : set.WellFormed)
    (full : set.FullAssignment script a) (contained : Contained set a (script.targets a))
    (start : s.classes = set) (ran : (declare script a).run s = .ok applied t) :
    Changed (.within set a (set.Dropped (script.targets a))) s t := by
  obtain ⟨blocks, u, added, steps⟩ := run_bind_ok ran
  have carried := carriedTargets_of_addClasses full added
  have kept : ∀ t ∈ blocks.flatMap carriedTargets, t ∈ script.targets a := by
    intro t member
    rw [carried] at member
    exact (List.mem_filter.1 member).1
  have once : (blocks.flatMap carriedTargets).Pairwise fun t u => t.removes = true →
      u.removes = true → ¬t.SameMethod set u := by
    rw [carried]
    exact (contained.once.imp
      fun apart removes removes' => apart (.inl ⟨removes, .inl removes'⟩)).filter _
  have adding : Changed (.within set a fun _ _ _ => False) s u :=
    (Changes.addClasses _ _ s).ok added
  have reaches : Reaches set a s := by
    rw [Reaches, start]
    exact .refl _ set
  have prepared := addClasses_ok added
  rw [start] at prepared
  have fitting : ∀ e ∈ blocks, Fitting set a e := by
    intro e member
    obtain ⟨b, inside, isPrepared⟩ := exists_mem_of_mem_right prepared member
    exact fitting_of_prepared wellFormed ((List.forall₂_iff_zip.1 full).2 inside)
      (List.of_mem_zip inside).2 isPrepared
  have removable : Removable set u (blocks.flatMap carriedTargets) := by
    intro t member removes
    have declares := contained.declared t (kept t member) (.inl removes)
    rw [← start] at declares wellFormed ⊢
    exact adding.classes.declares wellFormed _ _ _ id declares
  have classes : ChangesAt (.within set a (set.Dropped (blocks.flatMap carriedTargets))) u
      (blocks.mapM fun e => applyClass e.1 e.2) := by
    refine .mapM_within wellFormed (fun e member v reached removable' => ?_) once
      (reaches.step adding) removable
    refine applyClass_within wellFormed reached (fitting e member) ?_ removable' ?_
    · exact (List.pairwise_flatMap.1 once).1 e member
    · exact fun t inside => contained.flags t (kept t (List.mem_flatMap.2 ⟨e, member, inside⟩))
  refine (adding.dropMore fun _ _ _ h => h.elim).trans ((classes.ok steps).dropMore ?_)
  rintro cls name desc ⟨t, member, rest⟩
  exact ⟨t, kept t member, rest⟩

/-- What the body phase may edit. -/
theorem evolves_of_rebuilt {may : ClassSet.Permit} {written : MethodId → Prop} {s t : ApplyState}
    (rebuilt : Rebuilt written s t) (allowed : ∀ m, written m → may.code m) :
    ClassSet.Evolves may s.classes t.classes := by
  have shape := rebuilt.shape
  have classPart : ∀ {α : Type} (part : ClassEntry → α),
      (∀ c, part { c with modified := true } = part c) →
      ∀ id, part (t.classes.classAt id) = part (s.classes.classAt id) := fun part same id =>
    ClassSet.same_of_shape (f := fun set => part (set.classAt id))
      (fun set => set.classAt_shape part same id) shape
  have methodPart : ∀ {α : Type} (part : MethodEntry → α),
      (∀ m, part { m with code := none } = part m) →
      ∀ id, part (t.classes.methodAt id) = part (s.classes.methodAt id) := fun part same id =>
    ClassSet.same_of_shape (f := fun set => part (set.methodAt id))
      (fun set => set.methodAt_shape part same id) shape
  have fieldsSame : t.classes.fields = s.classes.fields :=
    ClassSet.same_of_shape (f := fun set => set.fields) (fun _ => rfl) shape
  have fieldAt : t.classes.fieldAt = s.classes.fieldAt := by
    funext id
    rw [ClassSet.fieldAt, ClassSet.fieldAt, fieldsSame]
  have hasMethod : ∀ id, t.classes.HasMethod id ↔ s.classes.HasMethod id := by
    intro id
    have sizes := congrArg (fun set : ClassSet => set.methods.size) shape
    simp only [ClassSet.shape, Array.size_map] at sizes
    rw [ClassSet.HasMethod, ClassSet.HasMethod, sizes]
  have hasField : ∀ id, t.classes.HasField id ↔ s.classes.HasField id := by
    intro id
    rw [ClassSet.HasField, ClassSet.HasField, fieldsSame]
  have methods := classPart (·.methods) fun _ => rfl
  have fields := classPart (·.fields) fun _ => rfl
  have name := methodPart (·.name) fun _ => rfl
  have desc := methodPart (·.desc) fun _ => rfl
  have owner := methodPart (·.declaredBy) fun _ => rfl
  constructor
  case hasClass =>
    intro id known
    rwa [ClassSet.HasClass, ClassSet.same_of_shape (f := fun set => set.classes.size)
      ClassSet.size_shape shape]
  case hasMethod => exact fun id => (hasMethod id).2
  case hasField => exact fun id => (hasField id).2
  case names => exact fun id _ => classPart (·.name) (fun _ => rfl) id
  case lists =>
    exact fun id _ _ => ⟨classPart (·.toClassHeader) (fun _ => rfl) id, fields id, methods id⟩
  case field => exact fun id _ => by rw [fieldAt]; exact ⟨rfl, rfl⟩
  case signature =>
    exact fun id _ =>
      ⟨name id, desc id, methodPart (·.exceptions) (fun _ => rfl) id, owner id⟩
  case access => exact fun id _ _ => methodPart (·.access) (fun _ => rfl) id
  case code => exact fun id _ not => rebuilt.codes id fun writes => not (allowed id writes)
  case wellFormed =>
    intro h
    constructor
    · intro cls m member
      rw [methods] at member
      rw [hasMethod, owner]
      exact h.methods cls m member
    · intro cls f member
      rw [fields] at member
      rw [hasField, fieldAt]
      exact h.fields cls f member
    · intro cls m member
      rw [classPart (·.view) fun _ => rfl] at member
      rw [hasMethod]
      exact h.views cls m member
  case declares =>
    rintro - cls _ _ - ⟨m, member, rfl, rfl⟩
    exact ⟨m, by rwa [methods], name m, desc m⟩

/-- A method whose body is changed is not removed by another block, before or after it. -/
theorem Contained.apart {set : ClassSet} {a : Assignment} {ts : List MethodTarget}
    (contained : Contained set a ts) {t u : MethodTarget} (inside : t ∈ ts) (inside' : u ∈ ts)
    (removes : t.removes = true) (rewrites : u.rewrites = true) : ¬t.SameMethod set u := by
  have symmetric : Std.Symm fun t u : MethodTarget =>
      t.removes = true ∧ (u.removes = true ∨ u.rewrites = true) ∨
        t.rewrites = true ∧ u.removes = true → ¬t.SameMethod set u := by
    constructor
    rintro t u apart both ⟨cls, name, desc⟩
    refine apart ?_ ⟨cls.symm, name.symm, desc.symm⟩
    rcases both with ⟨one, other | other⟩ | ⟨one, other⟩
    · exact .inl ⟨other, .inl one⟩
    · exact .inr ⟨other, one⟩
    · exact .inl ⟨other, .inr one⟩
  have different : t ≠ u := by
    rintro rfl
    simp only [MethodTarget.rewrites, MethodTarget.edited, MethodTarget.removes, Bool.and_eq_true,
      beq_iff_eq] at removes rewrites
    rw [removes.2] at rewrites
    cases rewrites.1.2
  exact contained.once.forall inside inside' different (.inl ⟨removes, .inr rewrites⟩)

namespace ClassSet

/-- The class sets that taking in classes, working out inheritance and applying accepted scripts
lead to. -/
inductive Reachable : ClassSet → Prop where
  | empty (classpath : Classpath) : Reachable { classpath := classpath }
  | insert {set later file source hidden} : Reachable set →
      set.insert? file source hidden = some later → Reachable later
  | load {set later name found} : Reachable set → (load name).run set = .ok found later →
      Reachable later
  | shareInherited {set later} : Reachable set → shareInherited.run set = .ok () later →
      Reachable later
  | loadMentioned {set later} : Reachable set → loadMentioned.run set = .ok () later →
      Reachable later
  | apply {set script o r result} : Reachable set →
      set.resolve script {} (set.verify script) o = .ok r → set.apply script r = .ok result →
      Reachable result.classes

theorem Reachable.wellFormed {set : ClassSet} (reachable : Reachable set) : set.WellFormed := by
  induction reachable with
  | empty classpath => exact wellFormed_empty classpath
  | insert _ inserted ih => exact (evolves_insert? inserted).wellFormed ih
  | load _ ran ih => exact ((GrowsAt.load _ _).ok ran).wellFormed ih
  | shareInherited _ ran ih => exact ((GrowsAt.shareInherited ih).ok ran).wellFormed ih
  | loadMentioned _ ran ih => exact ((GrowsAt.loadMentioned _).ok ran).wellFormed ih
  | apply _ _ applied ih =>
    obtain ⟨blocks, declared, final, ran, bodies, same⟩ := apply_ok applied
    have first := (Changes.declare _ _ _).ok ran
    have second : Evolves .everything declared.classes final.classes :=
      evolves_of_rebuilt (applyBodies_rebuilt bodies) fun _ _ => trivial
    rw [same]
    exact second.wellFormed (first.classes.wellFormed ih)

/-- Hidden classes are not assigned. -/
theorem visible_of_assigned {set : ClassSet} {script : Script} {a : Assignment} {id : ClassId}
    (full : set.FullAssignment script a) (assigned : a.Assigns id) :
    (set.classAt id).hidden = false := by
  obtain ⟨choice, member, chosen⟩ := assigned
  obtain ⟨block, isFull⟩ := exists_of_mem_right full member
  exact ((set.mem_candidates id).1 (isFull.candidate_of_assigned chosen)).2.1

/-- The bodies that are written are those of new methods and of methods of assigned classes. -/
theorem body_within {set : ClassSet} {script : Script} {a : Assignment} {s t : ApplyState}
    {pending : List PendingBody} {p : PendingBody} {m : MethodId} (wellFormed : set.WellFormed)
    (full : set.FullAssignment script a) (contained : Contained set a (script.targets a))
    (declaring : Changed (.within set a (set.Dropped (script.targets a))) s t)
    (start : s.classes = set)
    (targets : pending.filterMap PendingBody.target? =
      (script.targets a).filter MethodTarget.edited)
    (fresh : FreshBodies set pending) (member : p ∈ pending) (writes : p.Writes t.classes m) :
    ¬set.HasMethod m ∨ ¬set.HasClass (set.methodAt m).declaredBy ∨
      a.Assigns (set.methodAt m).declaredBy := by
  subst start
  cases p with
  | added id block =>
    obtain rfl : m = id := writes
    exact .inl (fresh m block member)
  | matched cls handle block =>
    obtain ⟨changes, body⟩ := writes
    let target : MethodTarget := ⟨cls, handle, block, .keep⟩
    have isTarget : target ∈ pending.filterMap PendingBody.target? :=
      List.mem_filterMap.2 ⟨_, member, rfl⟩
    rw [targets] at isTarget
    obtain ⟨inside, edited⟩ := List.mem_filter.1 isTarget
    have rewrites : target.rewrites = true := by
      rw [MethodTarget.rewrites, edited]
      exact changes
    obtain ⟨e, inZip, chosen, assigned⟩ := choice_of_target inside
    have known := ((List.forall₂_iff_zip.1 full).2 inZip).hasMethod wellFormed assigned
    obtain ⟨name, desc, -, -⟩ := declaring.classes.signature handle known
    have declares : t.classes.Declares cls (t.classes.methodAt handle).name
        (t.classes.methodAt handle).desc := by
      rw [name, desc]
      refine declaring.classes.declares wellFormed _ _ _ ?_
        (contained.declared target inside (.inr rewrites))
      rintro ⟨u, inside', removes, same⟩
      exact contained.apart inside' inside removes rewrites same
    obtain ⟨m', own, body', -, -⟩ := bodyOf_of_declares declares
    obtain rfl := Option.some.inj (body.symm.trans body')
    by_cases old : s.classes.HasMethod m
    · have owner := (declaring.classes.signature m old).2.2.2
      have isOwn := ((declaring.classes.wellFormed wellFormed).methods cls m own).2
      rw [← owner, isOwn]
      exact .inr (.inr ⟨e.2, (List.of_mem_zip inZip).2, chosen⟩)
    · exact .inl old

/-- If every method block stays with what its own class declares, applying a script leaves every
class alone that is not assigned to a class block, and so every hidden class. -/
theorem apply_keeps_unassigned {set : ClassSet} {script : Script} {o : ResolveOptions}
    {r : Resolution} {result : Applied} (reachable : Reachable set)
    (accepted : set.resolve script {} (set.verify script) o = .ok r)
    (contained : Contained set r.assignment (script.targets r.assignment))
    (applied : set.apply script r = .ok result) :
    ∀ id, set.HasClass id → ¬r.assignment.Assigns id ∨ (set.classAt id).hidden = true →
      set.ClassKept result.classes id := by
  intro id known kept
  have full := (firstAccepted_of_resolve accepted).full
  have wellFormed := reachable.wellFormed
  have unassigned : ¬r.assignment.Assigns id := by
    rcases kept with unassigned | hidden
    · exact unassigned
    · intro assigned
      rw [visible_of_assigned full assigned] at hidden
      cases hidden
  obtain ⟨blocks, declared, final, ran, bodies, same⟩ := apply_ok applied
  have declaring := declare_within wellFormed full contained rfl ran
  obtain ⟨targets, fresh⟩ := declare_pending full ran
  have writing : Evolves (.within set r.assignment (set.Dropped (script.targets r.assignment)))
      declared.classes final.classes := by
    refine evolves_of_rebuilt (applyBodies_rebuilt bodies) ?_
    rintro m ⟨p, member, writes⟩
    exact body_within wellFormed full contained declaring rfl targets fresh member writes
  rw [same]
  exact classKept_of_evolves wellFormed (declaring.classes.trans writing) known unassigned

/-- A class with a method `run` that only returns. -/
def runnable (name superName : String) : ClassFile :=
  ⟨⟨name, some superName, [], 33, 50, 0, none⟩, [],
    [⟨"run", "()V", 1, [], some { insns := [.simple Opcode.voidReturn] }⟩]⟩

/-- A class and its subclass, which both declare `run`. -/
def twoClasses : ClassSet :=
  ((insert? {} (runnable "p/P" objectClass) none false).bind fun set =>
    set.insert? (runnable "p/C" "p/P") none false).getD {}

/-- The two classes with inheritance worked out: both show the method of the subclass. -/
def family : ClassSet :=
  let entry : ClassFile → List MethodId → ClassEntry := fun file methods =>
    { file.header with methods := methods, view := [⟨1⟩], modified := false }
  let method : ClassId → List ClassId → MethodEntry := fun id owners =>
    { name := "run"
      desc := "()V"
      access := 1
      exceptions := []
      code := some { insns := [.simple Opcode.voidReturn] }
      declaredBy := id
      owners := owners }
  { classes := #[entry (runnable "p/P" objectClass) [⟨0⟩], entry (runnable "p/C" "p/P") [⟨1⟩]]
    methods := #[method ⟨0⟩ [⟨0⟩], method ⟨1⟩ [⟨0⟩, ⟨1⟩]] }

theorem exists_insert?_twoClasses :
    ∃ parent, insert? {} (runnable "p/P" objectClass) none false = some parent ∧
    parent.insert? (runnable "p/C" "p/P") none false = some twoClasses :=
  Option.bind_eq_some_iff.1 (by with_unfolding_all decide)

theorem candidates_twoClasses : twoClasses.candidates = [⟨1⟩, ⟨0⟩] :=
  candidates_of_sorted (by with_unfolding_all decide) (by with_unfolding_all decide)

theorem candidates_family : family.candidates = [⟨1⟩, ⟨0⟩] :=
  candidates_of_sorted (by decide) (by decide)

theorem reachable_family : Reachable family := by
  obtain ⟨parent, first, second⟩ := exists_insert?_twoClasses
  have shared : shareInherited.run twoClasses = .ok () family := by
    rw [shareInherited_of_candidates candidates_twoClasses]
    with_unfolding_all decide
  exact .shareInherited (.insert (.insert (.empty []) first) second) shared

/-- A block for `p/P` with some blocks that remove its method. -/
def removals (count : Nat) : Script :=
  ⟨[⟨.keep, .ordinary, ⟨"p/P", false⟩, 1, [], [], [], List.replicate count
    ⟨.remove, ⟨"run", false⟩, "()V", ⟨[], .void⟩, false, false, false, [], 2⟩⟩]⟩

def removed (count : Nat) : Resolution :=
  ⟨{}, [⟨some ⟨0⟩, [], List.replicate count (some ⟨1⟩)⟩]⟩

theorem resolve_removals :
    family.resolve (removals 1) {} (family.verify (removals 1)) {} = .ok (removed 1) :=
  resolve_of_candidates candidates_family (by decide) (by decide)

theorem apply_keeps_subclass :
    ∃ result, family.apply (removals 1) (removed 1) = .ok result ∧
      family.ClassKept result.classes ⟨1⟩ := by
  have goesThrough : (family.apply (removals 1) (removed 1)).toOption.isSome = true := by decide
  cases applied : family.apply (removals 1) (removed 1) with
  | error e => simp [applied, Except.toOption] at goesThrough
  | ok result =>
    have own : (family.classAt ⟨0⟩).methods = [⟨0⟩] := by decide
    refine ⟨result, rfl,
      apply_keeps_unassigned reachable_family resolve_removals ?_ applied ⟨1⟩ ?_ (.inl ?_)⟩
    · refine ⟨fun t member _ => ?_, List.pairwise_singleton _ _, fun t member edited => ?_⟩
      · obtain rfl := List.mem_singleton.1 member
        refine ⟨⟨0⟩, by simp [own], ?_, ?_⟩
        · decide
        · decide
      · obtain rfl := List.mem_singleton.1 member
        cases edited
    · exact Nat.one_lt_two
    · rintro ⟨choice, member, chosen⟩
      obtain rfl := List.mem_singleton.1 member
      cases chosen

/-- The second of two blocks that remove the method of a class removes that of its subclass. -/
theorem apply_removes_from_subclass :
    ∃ result, family.resolve (removals 2) {} (family.verify (removals 2)) {} = .ok (removed 2) ∧
      family.apply (removals 2) (removed 2) = .ok result ∧
      ¬family.ClassKept result.classes ⟨1⟩ := by
  have accepted : family.resolve (removals 2) {} (family.verify (removals 2)) {} =
    .ok (removed 2) := resolve_of_candidates candidates_family (by decide) (by decide)
  have lost : (family.apply (removals 2) (removed 2)).toOption.map
    (fun result => (result.classes.classAt ⟨1⟩).methods) = some [] := by with_unfolding_all decide
  obtain ⟨result, applied, none⟩ := exists_ok_of_map lost
  refine ⟨result, accepted, applied, fun kept => ?_⟩
  have methods : (family.classAt ⟨1⟩).methods = [⟨1⟩] := by decide
  have same := kept.lists.2.2
  rw [none, methods] at same
  cases same

end ClassSet

end JvmPatch
