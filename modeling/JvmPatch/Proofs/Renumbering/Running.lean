import JvmPatch.Proofs.Apply.MemberNames
import JvmPatch.Proofs.Renumbering.Applying
import JvmPatch.Proofs.Renumbering.Insertion
import JvmPatch.Proofs.Renumbering.Sharing
import JvmPatch.Run.Basic
import Mathlib.Tactic.IntervalCases

/-! Runs of scripts over classes that have come in in different orders. The classes get other
numbers, and that is the only difference that it makes, as long as no name of members is tied. -/

set_option autoImplicit false

namespace JvmPatch

/-- The same weak names stand for the same things. -/
structure PatchBindings.Same (b b' : PatchBindings) : Prop where
  patch : b'.patch = b.patch
  classes : b'.classes.Perm b.classes
  methods : b'.methods.Perm b.methods
  fields : b'.fields.Perm b.fields

/-- What is shown of members comes from both tables in some order. -/
theorem Table.Renamed.shown {α β : Type} {κ : α → α} {t u : Table α MemberKey}
    (renamed : t.Renamed κ id u) {given given' : α × MemberKey → β}
    (alike : ∀ e ∈ t.entries, given' (κ e.1, e.2) = given e) (le : β → β → Bool) :
    (((u.entries.filter fun e => isWeakName e.2.name).map given').mergeSort le).Perm
      (((t.entries.filter fun e => isWeakName e.2.name).map given).mergeSort le) := by
  refine (List.mergeSort_perm _ _).trans (.trans ?_ (List.mergeSort_perm _ _).symm)
  refine ((renamed.entries.filter _).map _).trans ?_
  rw [List.filter_map, List.map_map]
  exact .of_eq (List.map_congr_left fun e member => alike e (List.mem_filter.1 member).1)

/-- The weak names of scopes that differ in numbers only stand for the same things. -/
theorem Scope.Renumbered.bindings {ρ : Renumbering} {set other : ClassSet} {scope scope' : Scope}
    (same : ClassSet.Renumbered ρ set other) (renumbered : Scope.Renumbered ρ set scope scope')
    (patch : String) :
    (PatchBindings.ofScope patch set scope).Same (.ofScope patch other scope') := by
  constructor
  case patch => rfl
  case classes =>
    refine (renumbered.classes.entries.map _).trans ?_
    rw [List.map_map]
    refine .of_eq (List.map_congr_left fun e _ => ?_)
    simp only [Function.comp_apply, same.name, id_eq]
  case methods =>
    refine renumbered.methods.shown (fun e member => ?_) _
    have known := renumbered.knownMethods _ _ (renumbered.methods.keyed.get?_eq_some_iff.2 member)
    simp only [same.methodDeclaredBy _ known, same.name, same.methodName, same.methodDesc]
  case fields =>
    refine renumbered.fields.shown (fun e member => ?_) _
    have known := renumbered.knownFields _ _ (renumbered.fields.keyed.get?_eq_some_iff.2 member)
    simp only [same.fieldDeclaredBy _ known, same.name, same.fieldName, same.fieldDesc]

section Lone

variable {set : ClassSet} {script : Script} {a : Assignment}

/-- No class has two methods or two fields. -/
structure ClassSet.Lone (set : ClassSet) : Prop where
  methods : ∀ cls m n, set.HasMethod m → set.HasMethod n → set.HoldsMethod cls m →
    set.HoldsMethod cls n → m = n
  fields : ∀ cls f g, set.HasField f → set.HasField g → set.HoldsField cls f →
    set.HoldsField cls g → f = g

/-- No name is tied where no class has two members of a kind. -/
theorem ClassSet.Lone.untied (lone : set.Lone) {scope : Scope} (known : scope.KnowsMembers set) :
    scope.Untied set := by
  constructor
  case methods =>
    intro cls key
    refine .of_either fun m member n member' holds holds' => ?_
    simp only [Bool.or_eq_true, beq_iff_eq, List.contains_iff_mem] at holds holds'
    exact lone.methods cls m n (known.methods _ (Table.mem_keysOf.1 member))
      (known.methods _ (Table.mem_keysOf.1 member'))
      holds holds'
  case fields =>
    intro cls key
    refine .of_either fun f member g member' holds holds' => ?_
    simp only [Bool.or_eq_true, beq_iff_eq, List.contains_iff_mem] at holds holds'
    exact lone.fields cls f g (known.fields _ (Table.mem_keysOf.1 member))
      (known.fields _ (Table.mem_keysOf.1 member'))
      holds holds'

/-- Where no class has two members of a kind, no name is tied in the trials that are made for a
script. -/
theorem TrialWalk.untied {scope : Scope} (walk : TrialWalk set script a scope)
    (formed : set.WellFormed) (tries : set.Tries script a) (lone : set.Lone) : scope.Untied set :=
  lone.untied (Scope.knowsMembers_of_steps walk.steps
    (fun _ _ _ _ names => names.2.known formed (formed.known_of_tries tries))
    fun _ _ _ _ names => names.2.known formed (formed.known_of_tries tries))

/-- While a script that adds no members is applied, names are looked up for method bodies only. -/
theorem ApplyM.LooksUp.exists_declared {start s : ApplyState} (looks : LooksUp script a start s)
    (fields : ∀ b ∈ script.classes, ∀ l ∈ b.fields, l.mode ≠ .add)
    (methods : ∀ b ∈ script.classes, ∀ m ∈ b.methods, m.mode ≠ .add) :
    ∃ applied, (declare script a).run start = .ok applied s := by
  have ofScript {block choice id t} (comes : ComesToMembers script a start block choice id t) :
      block ∈ script.classes := by
    cases comes with
    | intro added comes =>
      obtain ⟨e, isElement, prepared⟩ := exists_mem_of_mem_right (addClasses_ok added) comes.mem
      have same : block = e.1 := prepared.block
      exact same ▸ (List.of_mem_zip isElement).1
  cases looks with
  | field comes isField adds =>
    exact absurd adds (fields _ (ofScript comes) _ (List.of_mem_zip isField.mem).1)
  | method comes _ isMethod adds =>
    exact absurd adds (methods _ (ofScript comes) _ (List.of_mem_zip isMethod.mem).1)
  | bodies declared => exact ⟨_, declared⟩

/-- No name is tied where each name stands for one member. -/
theorem ApplyState.untied_of_nodup {s : ApplyState}
    (methods : (s.scope.methods.entries.map Prod.snd).Nodup)
    (fields : (s.scope.fields.entries.map Prod.snd).Nodup) : s.Untied := by
  have one {α : Type} {t : Table α MemberKey} (nodup : (t.entries.map Prod.snd).Nodup)
    {key : MemberKey} {x y : α}
      (member : x ∈ t.keysOf key) (member' : y ∈ t.keysOf key) : x = y :=
    congrArg Prod.fst (List.inj_on_of_nodup_map nodup (Table.mem_keysOf.1 member)
      (Table.mem_keysOf.1 member') rfl)
  constructor
  case scope =>
    exact ⟨fun _ _ => .of_either fun m member n member' _ _ => one methods member member',
      fun _ _ => .of_either fun f member g member' _ _ => one fields member member'⟩
  case inherited =>
    intro cls key m member n member' _ _
    rw [one methods member member']

end Lone

namespace ClassSet.Reachable

theorem insertAll? {files : List (ClassFile × Option Bytes)} {set later : ClassSet}
    (reachable : Reachable set) (inserted : set.insertAll? files = some later) :
    Reachable later := by
  induction files generalizing set with
  | nil => exact Option.some.inj inserted ▸ reachable
  | cons file files ih =>
    rw [ClassSet.insertAll?, List.foldlM_cons] at inserted
    obtain ⟨next, first, rest⟩ := Option.bind_eq_some_iff.1 inserted
    exact ih (reachable.insert first) rest

theorem prepare {set ready : ClassSet} (reachable : Reachable set)
    (prepared : ClassSet.prepare.run set = .ok () ready) :
    Reachable ready := by
  obtain ⟨_, shared, shares, loads⟩ := run_bind_ok prepared
  exact (reachable.shareInherited shares).loadMentioned loads

end ClassSet.Reachable

/-- Applies scripts to classes that are not ready yet. Nothing is read or written on the way. -/
def ClassSet.patch (o : ResolveOptions) (set : ClassSet) (scripts : List (String × Script)) :
    Except RunError (ClassSet × List PatchBindings) :=
  let run : RunM Id (ClassSet × List PatchBindings) := do
    RunM.applyScripts o (← RunM.prepare set) scripts
  run.run.run

/-- No name of members is tied in the states in which the scripts of a run look names up. -/
def ClassSet.RunUntied (o : ResolveOptions) : ClassSet → List (String × Script) → Prop
  | _, [] => True
  | set, (_, script) :: scripts =>
    (∀ a scope, set.Tries script a → TrialWalk set script a scope → scope.Untied set) ∧
      ∀ r, set.resolve script {} (set.verify script) o = .ok r →
        (∀ s, ApplyM.LooksUp script r.assignment ⟨set, r.scope, {}⟩ s → s.Untied) ∧
          ∀ done, set.apply script r = .ok done →
            ∀ next, ClassSet.prepare.run done.classes = .ok () next → RunUntied o next scripts

namespace RunM

variable {α β γ δ : Type} {ρ : Renumbering} {set other : ClassSet}

theorem run_bind (x : RunM Id α) (f : α → RunM Id γ) :
    (x >>= f).run.run = x.run.run >>= fun a => (f a).run.run := by
  cases x <;> rfl

/-- Two runs end with related results or with one error. -/
def Alike (Q : α → β → Prop) (x : RunM Id α) (y : RunM Id β) : Prop := SameEnd Q x.run.run y.run.run

protected theorem Alike.bind {Q : α → β → Prop} {P : γ → δ → Prop} {x : RunM Id α} {y : RunM Id β}
    {f : α → RunM Id γ} {g : β → RunM Id δ} (first : Alike Q x y)
    (rest : ∀ a b, x.run.run = .ok a → Q a b → Alike P (f a) (g b)) :
    Alike P (x >>= f) (y >>= g) := by
  unfold Alike at first ⊢
  rw [run_bind, run_bind]
  cases isFirst : x.run.run <;> cases isFirst' : y.run.run <;>
    rw [isFirst, isFirst'] at first <;> cases first
  · exact .error _
  · exact rest _ _ isFirst ‹_›

theorem prepare_alike (same : ClassSet.Renumbered ρ set other) :
    Alike (ClassSet.Renumbered ρ) (prepare set) (prepare other) := by
  unfold Alike prepare
  rcases (ClassSet.Renumbered.prepare ρ set other same).cases with
    ⟨_, _, s, t, ran, ran', -, left⟩ | ⟨e, s, t, ran, ran', -⟩
  · rw [ran, ran']
    exact .ok left
  · rw [ran, ran']
    exact .error _

theorem run_prepare {next : ClassSet} (ran : (prepare set : RunM Id ClassSet).run.run = .ok next) :
    ClassSet.prepare.run set = .ok () next := by
  unfold prepare at ran
  cases prepared : ClassSet.prepare.run set with
  | ok x t =>
    rw [prepared] at ran
    cases ran
    rfl
  | error e t =>
    rw [prepared] at ran
    cases ran

theorem applyScript_alike (o : ResolveOptions) (name : String) {script : Script}
    (same : ClassSet.Renumbered ρ set other)
    (tried : ∀ a scope, set.Tries script a → TrialWalk set script a scope → scope.Untied set)
    (applied : ∀ r, set.resolve script {} (set.verify script) o = .ok r →
      ∀ s, ApplyM.LooksUp script r.assignment ⟨set, r.scope, {}⟩ s → s.Untied) :
    Alike (fun x y => ClassSet.Renumbered ρ x.1 y.1 ∧ x.2.Same y.2) (applyScript o set name script)
      (applyScript o other name script) := by
  have resolved := same.resolve script o tried
  unfold Alike applyScript
  cases isResolved : set.resolve script {} (set.verify script) o <;>
    cases isResolved' : other.resolve script {} (other.verify script) o <;>
      rw [isResolved, isResolved'] at resolved <;>
    cases resolved
  · rename_i cause
    cases cause <;> exact .error _
  rename_i r r' alike
  have done := same.apply script alike (applied r isResolved)
  dsimp only
  cases isDone : set.apply script r <;> cases isDone' : other.apply script r' <;>
    rw [isDone, isDone'] at done <;>
    cases done
  · exact .error _
  · rename_i left
    exact .ok ⟨left.classes, left.scope.bindings left.classes name⟩

theorem run_applyScript {o : ResolveOptions} {name : String} {script : Script}
    {next : ClassSet × PatchBindings}
    (ran : (applyScript o set name script : RunM Id _).run.run = .ok next) :
    ∃ r done, set.resolve script {} (set.verify script) o = .ok r ∧ set.apply script r = .ok done ∧
      next.1 = done.classes := by
  unfold applyScript at ran
  cases resolved : set.resolve script {} (set.verify script) o with
  | error e =>
    rw [resolved] at ran
    cases e <;> cases ran
  | ok r =>
    rw [resolved] at ran
    dsimp only at ran
    cases applied : set.apply script r with
    | error e =>
      rw [applied] at ran
      cases ran
    | ok done =>
      rw [applied] at ran
      cases ran
      exact ⟨r, done, rfl, applied, rfl⟩

/-- Scripts are applied alike, as long as no name of members is tied. -/
theorem applyScripts_alike (o : ResolveOptions) {scripts : List (String × Script)}
    (same : ClassSet.Renumbered ρ set other) (untied : set.RunUntied o scripts) :
    Alike (fun x y => ClassSet.Renumbered ρ x.1 y.1 ∧ List.Forall₂ PatchBindings.Same x.2 y.2)
      (applyScripts o set scripts) (applyScripts o other scripts) := by
  induction scripts generalizing set other with
  | nil => exact .ok ⟨same, .nil⟩
  | cons script scripts ih =>
    obtain ⟨name, script⟩ := script
    obtain ⟨tried, onward⟩ := untied
    have first := applyScript_alike o name same tried fun r resolved => (onward r resolved).1
    cases scripts with
    | nil =>
      refine first.bind fun x y _ left => ?_
      exact .ok ⟨left.1, .cons left.2 .nil⟩
    | cons next rest =>
      refine first.bind fun x y ran left => ?_
      obtain ⟨r, done, resolved, applied, isDone⟩ := run_applyScript ran
      refine (prepare_alike left.1).bind fun u v ready isReady => ?_
      have later := (onward r resolved).2 done applied u (isDone ▸ run_prepare ready)
      refine (ih isReady later).bind fun z w _ last => ?_
      exact .ok ⟨last.1, .cons left.2 last.2⟩

end RunM

namespace ClassSet

theorem RunUntied.take {o : ResolveOptions} {set : ClassSet} {scripts : List (String × Script)}
    (untied : set.RunUntied o scripts) (n : Nat) : set.RunUntied o (scripts.take n) := by
  induction scripts generalizing set n with
  | nil =>
    rw [List.take_nil]
    trivial
  | cons script scripts ih =>
    cases n with
    | zero => trivial
    | succ n =>
      obtain ⟨tried, onward⟩ := untied
      refine ⟨tried, fun r resolved => ⟨(onward r resolved).1, fun done applied next ready => ?_⟩⟩
      exact ih ((onward r resolved).2 done applied next ready) n

/-- Classes that come in in another order are patched alike: as many scripts as there are of the
list, the run ends with one error for both orders, or with classes that differ in numbers only and
the same bindings. -/
theorem patch_perm {files files' : List (ClassFile × Option Bytes)} (perm : files.Perm files')
    (distinct : (files.map fun f => f.1.header.name).Nodup) (classpath : Classpath)
    (o : ResolveOptions) (scripts : List (String × Script))
    (untied : ∀ set ready, insertAll? { classpath := classpath } files = some set →
      ClassSet.prepare.run set = .ok () ready → ready.RunUntied o scripts) :
    ∃ set other, insertAll? { classpath := classpath } files = some set ∧
      insertAll? { classpath := classpath } files' = some other ∧
        ∀ n, SameEnd (fun x y => (∃ ρ, Renumbered ρ x.1 y.1) ∧
          List.Forall₂ PatchBindings.Same x.2 y.2)
          (set.patch o (scripts.take n)) (other.patch o (scripts.take n)) := by
  have new : New { classpath := classpath } files := ⟨distinct, fun _ _ => by simp [ClassSet.find?]⟩
  obtain ⟨set, other, ρ, inserted, inserted', same⟩ :=
    insertAll?_perm perm (fresh_empty classpath) new
  refine ⟨set, other, inserted, inserted', fun n => ?_⟩
  have run : RunM.Alike (fun x y => Renumbered ρ x.1 y.1 ∧ List.Forall₂ PatchBindings.Same x.2 y.2)
      (do RunM.applyScripts o (← RunM.prepare set) (scripts.take n))
      (do RunM.applyScripts o (← RunM.prepare other) (scripts.take n)) :=
    (RunM.prepare_alike same).bind fun u v ready isReady =>
      RunM.applyScripts_alike o isReady ((untied set u inserted (RunM.run_prepare ready)).take n)
  exact SameEnd.mono run fun x y related => ⟨⟨ρ, related.1⟩, related.2⟩

end ClassSet

/-! ### A run without ties and one with a tie -/

/-- A class with one method, ready for use. -/
def ClassFile.entryWith (f : ClassFile) (m : MethodId) : ClassEntry :=
  { f.header with methods := [m], view := [m], modified := false }

def MethodDecl.heldBy (m : MethodDecl) (cls : ClassId) (heirs : List ClassId) : MethodEntry :=
  { m with declaredBy := cls, owners := cls :: heirs }

def staticCaller : ClassFile :=
  ⟨⟨"p/A", some objectClass, [], 33, 50, 0, none⟩, [], [⟨"a", "()V", 9, [],
    some { insns := [.invoke Opcode.invokestatic "p/B" "b" "()V" false,
      .simple Opcode.voidReturn] }⟩]⟩

def staticCallee : ClassFile :=
  ⟨⟨"p/B", some objectClass, [], 33, 50, 0, none⟩, [],
    [⟨"b", "()V", 9, [], some { insns := [.simple Opcode.voidReturn] }⟩]⟩

/-- The two classes, with the class that both descend from once it has been asked for. -/
def callPair (ready : Bool) : ClassSet :=
  { classes := #[staticCaller.entryWith ⟨0⟩, staticCallee.entryWith ⟨1⟩] ++ if ready then
    #[.stub objectClass] else #[]
    methods := (staticCaller.methods.map (·.heldBy ⟨0⟩ []) ++
      staticCallee.methods.map (·.heldBy ⟨1⟩ [])).toArray }

/-- Finds a call by weak names and makes it once more. -/
def callTwice : Script :=
  let call (mode : Mode) (line : Nat) (text : String) : InsnLine :=
    ⟨mode, .invoke Opcode.invokestatic,
      .invoke Opcode.invokestatic ⟨"B", true⟩ ⟨"n", true⟩ ⟨[], .void⟩ "()V", line, text⟩
  ⟨[⟨.keep, .ordinary, ⟨"A", true⟩, 1, [], [], [],
    [⟨.keep, ⟨"m", true⟩, "()V", ⟨[], .void⟩, true, false, false,
      [call .keep 3 ".invoke-static ~B ~n ()V", call .add 4 "+invoke-static ~B ~n ()V",
        ⟨.keep, .ret, .ret, 5, ".return"⟩],
    2⟩]⟩]⟩

theorem candidates_callPair (ready : Bool) : (callPair ready).candidates = [⟨0⟩, ⟨1⟩] := by
  cases ready <;> exact ClassSet.candidates_of_sorted (by decide) (by decide)

theorem prepare_callPair :
    ClassSet.insertAll? {} [(staticCaller, none), (staticCallee, none)] = some (callPair false) ∧
    ClassSet.prepare.run (callPair false) = .ok () (callPair true) := by
  have shared : ClassSet.shareInherited.run (callPair false) = .ok () (callPair false) := by
    rw [ClassSet.shareInherited_of_candidates (candidates_callPair false)]
    with_unfolding_all decide
  refine ⟨by with_unfolding_all decide, ?_⟩
  rw [ClassSet.prepare_of_candidates shared (candidates_callPair false)]
  with_unfolding_all decide

theorem lone_callPair : (callPair true).Lone := by
  have held (cls : ClassId) (m : MethodId) (has : (callPair true).HasMethod m)
    (holds : (callPair true).HoldsMethod cls m) :
      cls.index = m.index := by
    obtain ⟨n⟩ := m
    have less : n < 2 := has
    have owner : (callPair true).HoldsMethod cls ⟨n⟩ ↔ (⟨n⟩ : ClassId) = cls ∨
        cls ∈ [(⟨n⟩ : ClassId)] := by
      interval_cases n <;> rfl
    rcases owner.1 holds with rfl | inside
    · rfl
    · rw [List.mem_singleton.1 inside]
  constructor
  case methods =>
    intro cls m n has has' holds holds'
    exact congrArg MethodId.mk ((held cls m has holds).symm.trans (held cls n has' holds'))
  case fields => exact fun _ f _ has => absurd has (Nat.not_lt_zero f.index)

/-- The scope once all that a script declares has been carried out. -/
def ClassSet.scopeOfDeclare (set : ClassSet) (script : Script) (r : Resolution) : Scope :=
  (leftBy (ApplyM.declare script r.assignment) ⟨set, r.scope, {}⟩).scope

/-- Each name of members in the script stands for one member before the body is changed. -/
theorem untied_declare_callPair {r : Resolution} {x : List (ClassChoice × List PendingBody)}
    {s : ApplyState} (resolved : (callPair true).resolve callTwice {}
      ((callPair true).verify callTwice) {} = .ok r)
    (declared : (ApplyM.declare callTwice r.assignment).run ⟨callPair true, r.scope, {}⟩ =
      .ok x s) : s.Untied := by
  have apart : ((callPair true).resolve callTwice {} ((callPair true).verify callTwice)
    {}).toOption.all fun r =>
      decide ((((callPair true).scopeOfDeclare callTwice r).methods.entries.map Prod.snd).Nodup ∧
        (((callPair true).scopeOfDeclare callTwice r).fields.entries.map Prod.snd).Nodup) := by
    rw [ClassSet.resolve_eq_search (by decide)]
    simp only [ClassSet.scopeOfDeclare, ClassSet.search, ClassSet.forAssignments,
      ClassSet.forChoices, ClassSet.classOptions, callTwice, candidates_callPair]
    with_unfolding_all decide
  rw [resolved] at apart
  obtain ⟨methods, fields⟩ := of_decide_eq_true apart
  have left : (callPair true).scopeOfDeclare callTwice r = s.scope :=
    congrArg ApplyState.scope (leftBy_ok declared)
  exact ApplyState.untied_of_nodup (left ▸ methods) (left ▸ fields)

theorem runUntied_callPair : (callPair true).RunUntied {} [("p", callTwice)] := by
  obtain ⟨inserted, prepared⟩ := prepare_callPair
  have formed : (callPair true).WellFormed :=
    (((ClassSet.Reachable.empty []).insertAll? inserted).prepare prepared).wellFormed
  refine ⟨fun a scope tries walk => walk.untied formed tries lone_callPair,
    fun r resolved => ⟨fun s looks => ?_, ?_⟩⟩
  · obtain ⟨x, declared⟩ := looks.exists_declared (by decide) (by decide)
    exact untied_declare_callPair resolved declared
  · exact fun _ _ _ _ => trivial

theorem patch_perm_callPair :
    let files := [(staticCaller, none), (staticCallee, none)]
    let files' := [(staticCallee, none), (staticCaller, none)]
    files.Perm files' ∧ (files.map fun f => f.1.header.name).Nodup ∧
      (∀ set ready, ClassSet.insertAll? {} files = some set →
        ClassSet.prepare.run set = .ok () ready → ready.RunUntied {} [("p", callTwice)]) ∧
      ∃ set other, ClassSet.insertAll? {} files = some set ∧
        ClassSet.insertAll? {} files' = some other ∧
        ∀ n, SameEnd (fun x y => (∃ ρ, ClassSet.Renumbered ρ x.1 y.1) ∧
          List.Forall₂ PatchBindings.Same x.2 y.2)
          (set.patch {} ([("p", callTwice)].take n))
            (other.patch {} ([("p", callTwice)].take n)) := by
  intro files files'
  have perm : files.Perm files' := .swap _ _ _
  have distinct : (files.map fun f => f.1.header.name).Nodup := by decide
  have untied : ∀ set ready, ClassSet.insertAll? {} files = some set →
      ClassSet.prepare.run set = .ok () ready → ready.RunUntied {} [("p", callTwice)] := by
    intro set ready inserted prepared
    obtain rfl := Option.some.inj (prepare_callPair.1.symm.trans inserted)
    obtain rfl : callPair true = ready := by
      rw [prepare_callPair.2] at prepared
      cases prepared
      rfl
    exact runUntied_callPair
  exact ⟨perm, distinct, untied, ClassSet.patch_perm perm distinct [] {} _ untied⟩

/-- One script goes through if assignments are found for it and it can be applied with them. -/
theorem ClassSet.isOk_patch_singleton {set ready : ClassSet}
    (prepared : ClassSet.prepare.run set = .ok () ready) (o : ResolveOptions) (name : String)
    (script : Script) : (set.patch o [(name, script)]).isOk =
      (ready.resolve script {} (ready.verify script) o).toOption.any fun r =>
        (ready.apply script r).isOk := by
  have run : (set.patch o [(name, script)]).isOk =
      (RunM.applyScript o ready name script : RunM Id _).run.run.isOk := by
    unfold ClassSet.patch RunM.prepare
    rw [prepared]
    simp only [RunM.applyScripts, pure_bind]
    change ((RunM.applyScript o ready name script >>=
      fun x => pure (x.1, [x.2])) : RunM Id _).run.run.isOk = _
    rw [RunM.run_bind]
    cases (RunM.applyScript o ready name script : RunM Id _).run.run <;> rfl
  rw [run]
  unfold RunM.applyScript
  cases resolved : ready.resolve script {} (ready.verify script) o with
  | error e => cases e <;> rfl
  | ok r =>
    change _ = (ready.apply script r).isOk
    dsimp only
    cases applied : ready.apply script r <;> rfl

def tiedInterface : ClassFile :=
  ⟨⟨"p/Q", some objectClass, [], 1537, 50, 0, none⟩, [], [⟨"b", "()V", 1025, [], none⟩]⟩

def tiedParent : ClassFile :=
  ⟨⟨"p/P", some objectClass, [], 33, 50, 0, none⟩, [],
    [⟨"a", "()V", 1, [], some { insns := [.simple Opcode.voidReturn] }⟩]⟩

/-- Inherits a method from both. -/
def tiedChild : ClassFile :=
  ⟨⟨"p/C", some "p/P", ["p/Q"], 33, 50, 0, none⟩, [], [⟨"c", "()V", 1, [],
    some { insns := [.var Opcode.aload 0, .invoke Opcode.invokevirtual "p/C" "a" "()V" false,
      .simple Opcode.voidReturn] }⟩]⟩

/-- The three classes once they have come in, and once the methods have been inherited and the class
that all descend from has been asked for. -/
def tiedFamily (first second : ClassFile) (ready : Bool) : ClassSet :=
  let heirs := if ready then [⟨2⟩] else []
  { classes := #[first.entryWith ⟨0⟩, second.entryWith ⟨1⟩, tiedChild.entryWith ⟨2⟩] ++
      if ready then #[.stub objectClass] else #[]
    methods := (first.methods.map (·.heldBy ⟨0⟩ heirs) ++ second.methods.map (·.heldBy ⟨1⟩ heirs) ++
      tiedChild.methods.map (·.heldBy ⟨2⟩ [])).toArray }

/-- Both orders of the two that methods are inherited from. -/
inductive TiedOrder : ClassFile → ClassFile → Prop
  | parent : TiedOrder tiedParent tiedInterface
  | interface : TiedOrder tiedInterface tiedParent

theorem candidates_tiedFamily {first second : ClassFile} (order : TiedOrder first second)
    (ready : Bool) :
    (tiedFamily first second ready).candidates =
      ⟨2⟩ :: if first.header.name = "p/P" then [⟨0⟩, ⟨1⟩] else [⟨1⟩, ⟨0⟩] := by
  cases order <;> cases ready <;>
    exact ClassSet.candidates_of_sorted (by decide) (by decide)

theorem prepare_tiedFamily {first second : ClassFile} (order : TiedOrder first second) :
    (ClassSet.insertAll? {} [(first, none), (second, none), (tiedChild, none)]).map
      (fun set => ClassSet.prepare.run set) = some (.ok () (tiedFamily first second true)) := by
  have inserted : ClassSet.insertAll? {} [(first, none), (second, none), (tiedChild, none)] =
      some (tiedFamily first second false) := by
    cases order <;> with_unfolding_all decide
  have shared : ClassSet.shareInherited.run (tiedFamily first second false) =
      .ok () { tiedFamily first second true with
        classes := (tiedFamily first second false).classes } := by
    rw [ClassSet.shareInherited_of_candidates (candidates_tiedFamily order false)]
    cases order <;> with_unfolding_all decide
  have before : { tiedFamily first second true with
      classes := (tiedFamily first second false).classes : ClassSet }.candidates =
      ⟨2⟩ :: if first.header.name = "p/P" then [⟨0⟩, ⟨1⟩] else [⟨1⟩, ⟨0⟩] :=
    candidates_tiedFamily order false
  rw [inserted, Option.map_some, ClassSet.prepare_of_candidates shared before]
  cases order <;> with_unfolding_all decide

/-- Gives one name to the methods of the class and the interface, and looks for a call through the
subclass. -/
def tiedCall : Script :=
  let block (ident : Ident) (line : Nat) (insns : List InsnLine) : MethodBlock :=
    ⟨.keep, ident, "()V", ⟨[], .void⟩, false, false, false, insns, line⟩
  ⟨[⟨.keep, .ordinary, ⟨"p/P", false⟩, 1, [], [], [], [block ⟨"m", true⟩ 2 []]⟩,
    ⟨.keep, .interface, ⟨"p/Q", false⟩, 5, [], [], [], [block ⟨"m", true⟩ 6 []]⟩,
    ⟨.keep, .ordinary, ⟨"p/C", false⟩, 9, [], [], [], [block ⟨"c", false⟩ 10 [
      ⟨.keep, .any, .any, 11, ".any"⟩,
      ⟨.keep, .invoke Opcode.invokevirtual,
        .invoke Opcode.invokevirtual ⟨"p/C", false⟩ ⟨"m", true⟩ ⟨[], .void⟩ "()V", 12,
        ".invoke-virtual p/C ~m ()V"⟩,
      ⟨.keep, .ret, .ret, 13, ".return"⟩]]⟩]⟩

/-- The call is to the first method that goes by the name in the subclass, or it is not. -/
theorem apply_tiedFamily {first second : ClassFile} (order : TiedOrder first second) :
    (((tiedFamily first second true).resolve tiedCall {}
      ((tiedFamily first second true).verify tiedCall)
      {}).toOption.any fun r => ((tiedFamily first second true).apply tiedCall r).isOk) =
        decide (first.header.name = "p/P") := by
  rw [ClassSet.resolve_eq_search (by decide)]
  simp only [tiedCall, ClassSet.search, ClassSet.forAssignments, ClassSet.forChoices,
    ClassSet.classOptions, candidates_tiedFamily order]
  cases order <;> with_unfolding_all decide

/-- Where a name is tied, the classes that have come in in one order are patched, and those that
have come in in the other order are not. -/
theorem patch_tied :
    let files := [(tiedParent, none), (tiedInterface, none), (tiedChild, none)]
    let files' := [(tiedInterface, none), (tiedParent, none), (tiedChild, none)]
    files.Perm files' ∧ (files.map fun f => f.1.header.name).Nodup ∧
      ∃ set other, ClassSet.insertAll? {} files = some set ∧
        ClassSet.insertAll? {} files' = some other ∧
        (set.patch {} [("p", tiedCall)]).isOk = true ∧
          (other.patch {} [("p", tiedCall)]).isOk = false := by
  intro files files'
  obtain ⟨set, inserted, ready⟩ := Option.map_eq_some_iff.1 (prepare_tiedFamily .parent)
  obtain ⟨other, inserted', ready'⟩ := Option.map_eq_some_iff.1 (prepare_tiedFamily .interface)
  refine ⟨.swap _ _ _, by decide, set, other, inserted, inserted', ?_, ?_⟩
  · rw [ClassSet.isOk_patch_singleton ready, apply_tiedFamily .parent]
    rfl
  · rw [ClassSet.isOk_patch_singleton ready', apply_tiedFamily .interface]
    rfl

end JvmPatch
