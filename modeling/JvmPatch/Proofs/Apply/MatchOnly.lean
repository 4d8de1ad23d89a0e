import JvmPatch.Proofs.Apply.Marks
import JvmPatch.Proofs.Apply.Visibility

/-! Scripts that neither add nor remove anything. Applying one leaves everything alone but the flags
of matched methods with several flags for visibility, of which the one that the script declares is
left. -/

set_option autoImplicit false

namespace JvmPatch

open ApplyM

/-- Whether all lines of a block ask for something. -/
structure ClassBlock.OnlyMatches (block : ClassBlock) : Prop where
  mode : block.mode = .keep
  supers : ∀ l ∈ block.supers, l.mode = .keep
  interfaces : ∀ l ∈ block.interfaces, l.mode = .keep
  fields : ∀ l ∈ block.fields, l.mode = .keep
  methods : ∀ m ∈ block.methods, m.mode = .keep ∧ ∀ l ∈ m.insns, l.mode = .keep

/-- Whether all lines of a script ask for something. -/
def Script.OnlyMatches (script : Script) : Prop := ∀ block ∈ script.classes, block.OnlyMatches

namespace MethodTarget

/-- Whether the method has several flags for visibility. -/
def several (set : ClassSet) (t : MethodTarget) : Bool := (set.methodAt t.handle).access.hasSeveral

/-- The flags of the method with the one for visibility that the block declares, private before
protected. -/
def narrowed (set : ClassSet) (t : MethodTarget) : Access :=
  (set.methodAt t.handle).access.withVisibility
    (if t.block.isPrivate then Access.isPrivate else Access.isProtected)

/-- The classes after the flags of the method have been rewritten. -/
def rewrite (set : ClassSet) (t : MethodTarget) : ClassSet :=
  let m := set.methodAt t.handle
  let access := t.block.accessOver m.access
  if access ≠ m.access then
    (set.modifyMethod t.handle fun m => { m with access := access }).mark m.declaredBy
  else set

/-- The block declares the flags that the method has. -/
structure Agrees (set : ClassSet) (t : MethodTarget) : Prop where
  isStatic : t.block.isStatic = (set.methodAt t.handle).access.hasAny Access.isStatic
  isPrivate : t.block.isPrivate = (set.methodAt t.handle).access.hasAny Access.isPrivate
  isProtected : t.block.isProtected = (set.methodAt t.handle).access.hasAny Access.isProtected

theorem Agrees.declares {set : ClassSet} {t : MethodTarget} (agrees : t.Agrees set)
    (several : t.several set = true) : t.block.isPrivate = true ∨ t.block.isProtected = true := by
  rw [agrees.isPrivate, agrees.isProtected]
  unfold MethodTarget.several Access.hasSeveral at several
  by_contra none
  rw [not_or, Bool.not_eq_true, Bool.not_eq_true] at none
  simp only [List.filter_cons, none.1, none.2, List.filter_nil] at several
  split at several
  · simp at several
  · simp at several

end MethodTarget

namespace ClassSet

/-- The only difference is that of the targets' methods those with several flags for visibility have
one, and that the classes that declare them are marked. -/
structure Narrowed (set : ClassSet) (ts : List MethodTarget) (later : ClassSet) : Prop where
  classpath : later.classpath = set.classpath
  fields : later.fields = set.fields
  classCount : later.classes.size = set.classes.size
  methodCount : later.methods.size = set.methods.size
  method : ∀ m, (∀ t ∈ ts, t.handle = m → t.several set = false) → later.methodAt m = set.methodAt m
  narrowed : ∀ t ∈ ts, t.several set = true →
    later.methodAt t.handle = { set.methodAt t.handle with access := t.narrowed set }
  unmarked : ∀ id, (∀ t ∈ ts, (set.methodAt t.handle).declaredBy = id → t.several set = false) →
    later.classAt id = set.classAt id
  marked : ∀ t ∈ ts, t.several set = true →
    later.classAt (set.methodAt t.handle).declaredBy =
      { set.classAt (set.methodAt t.handle).declaredBy with modified := true }

namespace Narrowed

variable {set later : ClassSet} {ts : List MethodTarget} {t : MethodTarget}

theorem refl (set : ClassSet) : Narrowed set [] set := by
  constructor
  case classpath | fields | classCount | methodCount => rfl
  case method | unmarked => exact fun _ _ => rfl
  case narrowed | marked => exact fun _ member => nomatch member

theorem narrowed_eq {u : MethodTarget} (agrees : t.Agrees set) (agrees' : u.Agrees set)
    (same : u.handle = t.handle) : u.narrowed set = t.narrowed set := by
  rw [MethodTarget.narrowed, MethodTarget.narrowed, agrees.isPrivate, agrees'.isPrivate, same]

/-- A class may already have been marked. -/
theorem marked_or (before : Narrowed set ts later) (id : ClassId) :
    { later.classAt id with modified := true } = { set.classAt id with modified := true } := by
  by_cases found : ∃ u ∈ ts, (set.methodAt u.handle).declaredBy = id ∧ u.several set = true
  · obtain ⟨u, member, rfl, several⟩ := found
    rw [before.marked u member several]
  · rw [before.unmarked id fun u member owner => ?_]
    by_contra several
    exact found ⟨u, member, owner, by simpa using several⟩

/-- A method that is left alone is left alone. -/
theorem skip (before : Narrowed set ts later)
    (narrowed : t.several set = true →
      later.methodAt t.handle = { set.methodAt t.handle with access := t.narrowed set } ∧
        later.classAt (set.methodAt t.handle).declaredBy =
          { set.classAt (set.methodAt t.handle).declaredBy with modified := true }) :
    Narrowed set (ts ++ [t]) later := by
  have earlier : ∀ u ∈ ts, u ∈ ts ++ [t] := fun u member => List.mem_append_left _ member
  have cases : ∀ u ∈ ts ++ [t], u ∈ ts ∨ u = t := by simp
  constructor
  case classpath => exact before.classpath
  case fields => exact before.fields
  case classCount => exact before.classCount
  case methodCount => exact before.methodCount
  case method => exact fun m none => before.method m fun u member => none u (earlier u member)
  case unmarked => exact fun id none => before.unmarked id fun u member => none u (earlier u member)
  case narrowed =>
    intro u member several
    rcases cases u member with member | rfl
    · exact before.narrowed u member several
    · exact (narrowed several).1
  case marked =>
    intro u member several
    rcases cases u member with member | rfl
    · exact before.marked u member several
    · exact (narrowed several).2

/-- The flags of a method are narrowed that no other target has. -/
theorem write (before : Narrowed set ts later) (others : ∀ u ∈ ts, u.handle ≠ t.handle)
    (several : t.several set = true) (hasMethod : set.HasMethod t.handle)
    (hasClass : set.HasClass (set.methodAt t.handle).declaredBy) :
    Narrowed set (ts ++ [t]) ((later.modifyMethod t.handle fun m =>
      { m with access := t.narrowed set }).mark (set.methodAt t.handle).declaredBy) := by
  have last : t ∈ ts ++ [t] := by simp
  have earlier : ∀ u ∈ ts, u ∈ ts ++ [t] := fun u member => List.mem_append_left _ member
  have cases : ∀ u ∈ ts ++ [t], u ∈ ts ∨ u = t := by simp
  have known : later.HasMethod t.handle := by
    rw [HasMethod, before.methodCount]
    exact hasMethod
  have owned : (later.modifyMethod t.handle fun m => { m with access := t.narrowed set }).HasClass
      (set.methodAt t.handle).declaredBy := by
    change later.HasClass _
    rw [HasClass, before.classCount]
    exact hasClass
  have other : ∀ m, m ≠ t.handle → ((later.modifyMethod t.handle fun m =>
      { m with access := t.narrowed set }).mark (set.methodAt t.handle).declaredBy).methodAt m =
        later.methodAt m :=
    fun m different => later.methodAt_modifyMethod_of_ne _ different
  have otherClass : ∀ id, id ≠ (set.methodAt t.handle).declaredBy → ((later.modifyMethod t.handle
      fun m => { m with access := t.narrowed set }).mark
        (set.methodAt t.handle).declaredBy).classAt id = later.classAt id :=
    fun id different => classAt_modifyClass_of_ne _ _ different
  constructor
  case classpath => exact before.classpath
  case fields => exact before.fields
  case classCount => exact (Array.size_modify ..).trans before.classCount
  case methodCount => exact (Array.size_modify ..).trans before.methodCount
  case method =>
    intro m none
    have different : m ≠ t.handle := by
      rintro rfl
      simp [none t last rfl] at several
    rw [other m different]
    exact before.method m fun u member => none u (earlier u member)
  case unmarked =>
    intro id none
    have different : id ≠ (set.methodAt t.handle).declaredBy := by
      rintro rfl
      simp [none t last rfl] at several
    rw [otherClass id different]
    exact before.unmarked id fun u member => none u (earlier u member)
  case narrowed =>
    intro u member isSeveral
    rcases cases u member with member | rfl
    · rw [other _ (others u member)]
      exact before.narrowed u member isSeveral
    · have untouched := before.method u.handle fun v member same => absurd same (others v member)
      rw [← untouched]
      exact later.methodAt_modifyMethod_self _ known
  case marked =>
    intro u member isSeveral
    by_cases same : (set.methodAt u.handle).declaredBy = (set.methodAt t.handle).declaredBy
    · rw [same, ← before.marked_or]
      exact classAt_modifyClass_self _ _ owned
    · rw [otherClass _ same]
      rcases cases u member with member | rfl
      · exact before.marked u member isSeveral
      · exact absurd rfl same

/-- Rewriting the flags of one more method narrows them. -/
theorem step (before : Narrowed set ts later) (agrees : t.Agrees set)
    (agree : ∀ u ∈ ts, u.Agrees set) (hasMethod : set.HasMethod t.handle)
    (hasClass : set.HasClass (set.methodAt t.handle).declaredBy) :
    Narrowed set (ts ++ [t]) (t.rewrite later) := by
  have rewritten := accessOver_eq agrees.isStatic agrees.isPrivate agrees.isProtected
  rw [MethodTarget.rewrite]
  cases several : t.several set with
  | false =>
    have untouched : later.methodAt t.handle = set.methodAt t.handle := by
      refine before.method t.handle fun u _ same => ?_
      rwa [MethodTarget.several, same]
    rw [MethodTarget.several] at several
    simp only [several, Bool.false_eq_true, if_false] at rewritten
    simp only [untouched, rewritten, ne_eq, not_true_eq_false, if_false]
    exact before.skip fun h => by simp [MethodTarget.several, several] at h
  | true =>
    have isSeveral : (set.methodAt t.handle).access.hasSeveral = true := several
    rw [if_pos isSeveral] at rewritten
    by_cases seen : ∃ u ∈ ts, u.handle = t.handle
    · obtain ⟨u, member, same⟩ := seen
      have severalToo : u.several set = true := by rwa [MethodTarget.several, same]
      have narrow := before.narrowed u member severalToo
      have mark := before.marked u member severalToo
      rw [narrowed_eq agrees (agree u member) same, same] at narrow
      rw [same] at mark
      have settled := accessOver_withVisibility isSeveral agrees.isStatic agrees.isPrivate
        agrees.isProtected
      have kept : t.block.accessOver (later.methodAt t.handle).access =
          (later.methodAt t.handle).access := by
        rw [narrow]
        exact settled
      simp only [kept, ne_eq, not_true_eq_false, if_false]
      exact before.skip fun _ => ⟨narrow, mark⟩
    · have others : ∀ u ∈ ts, u.handle ≠ t.handle := fun u member same => seen ⟨u, member, same⟩
      have untouched := before.method t.handle fun u member same => absurd same (others u member)
      have different : t.block.accessOver (later.methodAt t.handle).access ≠
          (later.methodAt t.handle).access := by
        rw [untouched, rewritten]
        exact withVisibility_ne isSeveral _
      simp only [if_pos different]
      rw [untouched, rewritten]
      exact before.write others several hasMethod hasClass

/-- Rewriting the flags of all targets narrows them. -/
theorem foldl {us : List MethodTarget} (before : Narrowed set ts later)
    (agree : ∀ u ∈ ts ++ us, u.Agrees set) (hasMethod : ∀ u ∈ us, set.HasMethod u.handle)
    (hasClass : ∀ u ∈ us, set.HasClass (set.methodAt u.handle).declaredBy) :
    Narrowed set (ts ++ us) (us.foldl MethodTarget.rewrite later) := by
  induction us generalizing ts later with
  | nil => rwa [List.append_nil]
  | cons t us ih =>
    have one := before.step (agree t (by simp))
      (fun u member => agree u (List.mem_append_left _ member)) (hasMethod t List.mem_cons_self)
      (hasClass t List.mem_cons_self)
    rw [← List.singleton_append, ← List.append_assoc] at agree ⊢
    exact ih one agree (fun u member => hasMethod u (.tail _ member))
      fun u member => hasClass u (.tail _ member)

end Narrowed

theorem run_require {condition : Bool} {reason : Reason} {scope later : Scope} {x : Unit}
    (h : (CheckM.require condition reason).run scope = .ok x later) : condition = true := by
  unfold CheckM.require at h
  split at h
  · assumption
  · cases h

/-- A block that has been checked declares the flags of its method. -/
theorem agrees_of_checkMethod {set : ClassSet} {t : MethodTarget} {scope later : Scope}
    (h : (set.checkMethod t.block t.cls t.handle).run scope = .ok () later) : t.Agrees set := by
  obtain ⟨type, next, head, -⟩ := run_bind_ok h
  obtain ⟨_, _, -, head⟩ := run_bind_ok head
  obtain ⟨type', s₂, -, head⟩ := run_bind_ok head
  obtain ⟨start, s₃, got, head⟩ := run_bind_ok head
  cases got
  cases types : (set.checkMethodTypes t.block.type type').run s₂ with
  | error e s =>
    simp only [types] at head
    obtain ⟨_, _, -, head⟩ := run_bind_ok head
    cases head
  | ok check s =>
    simp only [types] at head
    obtain ⟨_, _, -, head⟩ := run_bind_ok head
    obtain ⟨_, _, static, head⟩ := run_bind_ok head
    obtain ⟨_, _, priv, head⟩ := run_bind_ok head
    obtain ⟨_, _, prot, -⟩ := run_bind_ok head
    exact ⟨beq_iff_eq.1 (run_require static), beq_iff_eq.1 (run_require priv),
      beq_iff_eq.1 (run_require prot)⟩

theorem agrees_of_verified {set : ClassSet} {scope later : Scope} {ts : List MethodTarget}
    (verified : Verified set scope ts later) : ∀ t ∈ ts, t.Agrees set := by
  induction verified with
  | quiet => exact fun _ member => nomatch member
  | method h =>
    intro t member
    obtain rfl := List.mem_singleton.1 member
    exact agrees_of_checkMethod h
  | append _ _ first second =>
    intro t member
    rcases List.mem_append.1 member with member | member
    · exact first t member
    · exact second t member

end ClassSet

/-- The state after the flags of some methods have been rewritten. -/
def rewriting (ts : List MethodTarget) (s : ApplyState) : ApplyState :=
  { s with classes := ts.foldl MethodTarget.rewrite s.classes }

theorem rewriting_append (ts us : List MethodTarget) (s : ApplyState) :
    rewriting (ts ++ us) s = rewriting us (rewriting ts s) := by
  simp only [rewriting, List.foldl_append]

/-- What remains to be done where a block neither adds nor removes lines. -/
def PendingBody.IsIdle (p : PendingBody) : Prop :=
  ∃ cls handle block, p = .matched cls handle block ∧ block.changesBody = false

namespace ApplyM

theorem run_forM_pure {α : Type} {f : α → ApplyM PUnit} {xs : List α}
    (each : ∀ x ∈ xs, f x = pure ⟨⟩) (s : ApplyState) : (xs.forM f).run s = .ok ⟨⟩ s := by
  induction xs with
  | nil => rfl
  | cons x xs ih =>
    rw [List.forM, each x List.mem_cons_self]
    exact ih fun y member => each y (.tail _ member)

theorem run_mapM_rewriting {α β : Type} {f : α → ApplyM β} {targets : α → List MethodTarget}
    {P : β → Prop} {xs : List α}
    (each : ∀ x ∈ xs, ∀ s, ∃ y, (f x).run s = .ok y (rewriting (targets x) s) ∧ P y)
    (s : ApplyState) :
    ∃ ys, (xs.mapM f).run s = .ok ys (rewriting (xs.flatMap targets) s) ∧ ∀ y ∈ ys, P y := by
  induction xs generalizing s with
  | nil => exact ⟨[], rfl, fun _ member => nomatch member⟩
  | cons x xs ih =>
    obtain ⟨y, first, holds⟩ := each x List.mem_cons_self s
    obtain ⟨ys, rest, all⟩ := ih (fun z member => each z (.tail _ member)) (rewriting (targets x) s)
    refine ⟨y :: ys, ?_, List.forall_mem_cons.2 ⟨holds, all⟩⟩
    rw [List.mapM_cons, EStateM.run_bind, first, List.flatMap_cons, rewriting_append]
    dsimp only
    rw [EStateM.run_bind, rest]
    rfl

theorem run_rewriteAccess (t : MethodTarget) (s : ApplyState) :
    (rewriteAccess t.handle t.block).run s = .ok () (rewriting [t] s) := by
  change (if _ then _ else pure () : ApplyM Unit).run s = .ok () ⟨t.rewrite s.classes, _, _⟩
  by_cases same : t.block.accessOver (s.classes.methodAt t.handle).access =
      (s.classes.methodAt t.handle).access
  · rw [if_neg (not_not.2 same), MethodTarget.rewrite]
    simp only [same, ne_eq, not_true_eq_false, if_false]
    rfl
  · rw [if_pos same, MethodTarget.rewrite]
    simp only [ne_eq, same, not_false_eq_true, if_true]
    rfl

/-- Carrying out a block that only matches rewrites the flags of the methods assigned to it. -/
theorem run_applyClass_of_onlyMatches {set : ClassSet} {e : ClassBlock × ClassChoice}
    (matching : e.1.OnlyMatches) (full : set.FullChoice e.1 e.2) (s : ApplyState) :
    ∃ y, (applyClass e.1 e.2).run s = .ok y (rewriting (e.1.targets e.2) s) ∧
      ∀ p ∈ y.2, p.IsIdle := by
  obtain ⟨block, choice⟩ := e
  dsimp only at matching full ⊢
  have fills := full.cls
  rw [matching.mode] at fills
  obtain ⟨id, -, chosen⟩ := fills
  have methods := full.methods
  rw [chosen] at methods
  have targets : block.targets choice =
      (block.methods.zip choice.methods).flatMap fun e => e.1.target id .keep e.2 := by
    rw [ClassBlock.targets, if_neg (by simp [matching.mode]), chosen, matching.mode]
  have supers : (block.supers.forM (applySuper block.line id)).run s = .ok ⟨⟩ s :=
    run_forM_pure (fun l member => by simp only [applySuper, matching.supers l member]) s
  have interfaces : (block.interfaces.forM (applyInterface block.line id)).run s = .ok ⟨⟩ s :=
    run_forM_pure (fun l member => by simp only [applyInterface, matching.interfaces l member]) s
  have fields : ∃ ys, ((block.fields.zip choice.fields).mapM fun e =>
      applyField block id e.1 e.2).run s =
        .ok ys (rewriting ((block.fields.zip choice.fields).flatMap fun _ => []) s) ∧
          ∀ y ∈ ys, True := by
    refine run_mapM_rewriting (fun e member s => ⟨e.2, ?_, trivial⟩) s
    simp only [applyField, matching.fields e.1 (List.of_mem_zip member).1]
    rfl
  have methodBlocks : ∃ ys, ((block.methods.zip choice.methods).mapM fun e =>
      applyMethod block id e.1 e.2).run s = .ok ys (rewriting (block.targets choice) s) ∧
        ∀ y ∈ ys, ∀ p ∈ y.2, p.IsIdle := by
    rw [targets]
    refine run_mapM_rewriting (fun e member s => ?_) s
    obtain ⟨mode, lines⟩ := matching.methods e.1 (List.of_mem_zip member).1
    have fills := (List.forall₂_iff_zip.1 methods).2 member
    rw [mode] at fills
    obtain ⟨handle, -, assigned⟩ := fills
    refine ⟨(some handle, [.matched id handle e.1]), ?_, ?_⟩
    · rw [assigned, MethodBlock.target, if_neg (by simp [mode])]
      simp only [applyMethod, mode]
      change (rewriteAccess handle e.1 >>= _).run s = _
      rw [EStateM.run_bind, run_rewriteAccess ⟨id, handle, e.1, .keep⟩ s]
      rfl
    · intro p member
      obtain rfl := List.mem_singleton.1 member
      refine ⟨id, handle, e.1, rfl, ?_⟩
      simpa [MethodBlock.changesBody] using lines
  obtain ⟨fs, fields, -⟩ := fields
  obtain ⟨ms, methodBlocks, idle⟩ := methodBlocks
  refine ⟨(⟨choice.cls, fs, ms.map Prod.fst⟩, ms.flatMap Prod.snd), ?_, ?_⟩
  · rw [List.flatMap_eq_nil_iff.2 fun _ _ => rfl] at fields
    simp only [applyClass, chosen, assigned, pure_bind, matching.mode, reduceCtorEq, if_false]
    rw [EStateM.run_bind, supers]
    dsimp only
    rw [EStateM.run_bind, interfaces]
    dsimp only
    rw [EStateM.run_bind, fields]
    dsimp only
    rw [EStateM.run_bind]
    rw [show rewriting [] s = s from rfl, methodBlocks]
    rfl
  · intro p member
    obtain ⟨y, inside, member⟩ := List.mem_flatMap.1 member
    exact idle y inside p member

/-- The declarations of a script that only matches rewrite the flags of the assigned methods. -/
theorem run_declare_of_onlyMatches {set : ClassSet} {script : Script} {a : Assignment}
    (matching : script.OnlyMatches) (full : set.FullAssignment script a) (s : ApplyState) :
    ∃ applied, (declare script a).run s = .ok applied (rewriting (script.targets a) s) ∧
      ∀ p ∈ applied.flatMap Prod.snd, p.IsIdle := by
  have members : ∀ e ∈ script.classes.zip a, e.1.OnlyMatches ∧ set.FullChoice e.1 e.2 :=
    fun e member => ⟨matching e.1 (List.of_mem_zip member).1,
      (List.forall₂_iff_zip.1 full).2 member⟩
  have added : ∀ blocks : List (ClassBlock × ClassChoice), (∀ e ∈ blocks, e.1.mode = .keep) →
      addClasses blocks = pure blocks := by
    intro blocks
    induction blocks with
    | nil => exact fun _ => rfl
    | cons e rest ih =>
      intro kept
      obtain ⟨block, choice⟩ := e
      have mode : block.mode = .keep := kept _ List.mem_cons_self
      simp only [addClasses, mode, reduceCtorEq, if_false, pure_bind,
        ih fun e member => kept e (.tail _ member)]
  have classes : ∃ ys, ((script.classes.zip a).mapM fun e => applyClass e.1 e.2).run s =
      .ok ys (rewriting (script.targets a) s) ∧ ∀ y ∈ ys, ∀ p ∈ y.2, p.IsIdle :=
    run_mapM_rewriting (fun e member s =>
      run_applyClass_of_onlyMatches (members e member).1 (members e member).2 s) s
  obtain ⟨ys, ran, idle⟩ := classes
  refine ⟨ys, ?_, ?_⟩
  · rw [declare, added _ fun e member => (members e member).1.mode, pure_bind]
    exact ran
  · intro p member
    obtain ⟨y, inside, member⟩ := List.mem_flatMap.1 member
    exact idle y inside p member

end ApplyM

/-- Bodies whose blocks neither add nor remove lines stay. -/
theorem BodiesEdited.idle {s : ApplyState} {pending : List PendingBody} {later : ClassSet}
    (edits : BodiesEdited s pending later) (idle : ∀ p ∈ pending, p.IsIdle) :
    later = s.classes := by
  induction edits with
  | stop => rfl
  | step one _ ih =>
    obtain ⟨cls, handle, block, rfl, quiet⟩ := idle _ List.mem_cons_self
    cases one with
    | idle => exact ih fun p member => idle p (.tail _ member)
    | change changes => simp [quiet] at changes

namespace ClassSet

/-- A script that only matches leaves everything alone, whether applying it succeeds or fails, but
for matched methods with several flags for visibility: of these the one is left that the block
declares, private before protected, and the class that declares the method is marked as modified. -/
theorem apply_onlyMatches {files : ClassFile → Prop}
    {scripts : ClassSet → Script → Resolution → Prop} {set : ClassSet} {script : Script}
    {o : ResolveOptions} {r : Resolution} (attained : Attained files scripts set)
    (accepted : set.resolve script {} (set.verify script) o = .ok r)
    (matching : script.OnlyMatches) :
    Narrowed set (script.targets r.assignment) (set.afterApply script r) ∧
      ∀ t ∈ script.targets r.assignment, t.several set = true →
        t.block.isPrivate = true ∨ t.block.isProtected = true := by
  have first := firstAccepted_of_resolve accepted
  obtain ⟨applied, ran, idle⟩ := ApplyM.run_declare_of_onlyMatches matching first.full
    ⟨set, r.scope, {}⟩
  have rewritten : set.afterApply script r =
      (script.targets r.assignment).foldl MethodTarget.rewrite set := by
    rcases afterApply_steps attained.wellFormed first.full with
      ⟨s, e, failed, -, -⟩ | ⟨applied', s, ran', -, edits⟩
    · rw [ran] at failed
      cases failed
    · rw [ran] at ran'
      cases ran'
      exact edits.idle idle
  obtain ⟨-, bound, verified⟩ := verified_of_accepts first.full first.accepted
  have agree := agrees_of_verified verified
  have hasMethod : ∀ t ∈ script.targets r.assignment, set.HasMethod t.handle := by
    intro t member
    obtain ⟨e, inside, -, assigned⟩ := choice_of_target member
    exact ((List.forall₂_iff_zip.1 first.full).2 inside).hasMethod attained.wellFormed assigned
  constructor
  · rw [rewritten]
    exact (Narrowed.refl set).foldl agree hasMethod
      fun t member => attained.methodsDeclared t.handle (hasMethod t member)
  · exact fun t member several => (agree t member).declares several

/-- A class with a method `run` that has all three flags for visibility. -/
def overexposed : ClassSet :=
  (insert? {} ⟨⟨"p/P", some objectClass, [], 33, 50, 0, none⟩, [],
    [⟨"run", "()V", 7, [], some { insns := [.simple Opcode.voidReturn] }⟩]⟩ none false).getD {}

/-- Two blocks that ask for the method. -/
def asksTwice : Script :=
  ⟨[⟨.keep, .ordinary, ⟨"p/P", false⟩, 1, [], [], [], List.replicate 2
    ⟨.keep, ⟨"run", false⟩, "()V", ⟨[], .void⟩, false, true, true, [], 2⟩⟩]⟩

def askedTwice : Resolution := ⟨{}, [⟨some ⟨0⟩, [], [some ⟨0⟩, some ⟨0⟩]⟩]⟩

theorem apply_onlyMatches_overexposed :
    Narrowed overexposed (asksTwice.targets askedTwice.assignment)
        (overexposed.afterApply asksTwice askedTwice) ∧
      ∀ t ∈ asksTwice.targets askedTwice.assignment, t.several overexposed = true →
        t.block.isPrivate = true ∨ t.block.isProtected = true := by
  have accepted : overexposed.resolve asksTwice {} (overexposed.verify asksTwice) {} =
    .ok askedTwice := by with_unfolding_all decide
  have inserted : insert? {} ⟨⟨"p/P", some objectClass, [], 33, 50, 0, none⟩, [],
    [⟨"run", "()V", 7, [], some { insns := [.simple Opcode.voidReturn] }⟩]⟩ none false =
      some overexposed := by with_unfolding_all decide
  have attained : Attained (fun _ => True) (fun _ _ _ => True) overexposed :=
    .insert (.empty []) trivial inserted
  refine apply_onlyMatches attained accepted fun block member => ?_
  obtain rfl := List.mem_singleton.1 member
  refine ⟨rfl, ?_, ?_, ?_, ?_⟩
  · exact List.forall_mem_nil _
  · exact List.forall_mem_nil _
  · exact List.forall_mem_nil _
  · intro m inside
    obtain rfl := (List.mem_replicate.1 inside).2
    exact ⟨rfl, List.forall_mem_nil _⟩

end ClassSet

end JvmPatch
