import JvmPatch.Proofs.Renumbering.Matching
import JvmPatch.Proofs.Resolve.Odometer

/-! Searching in class sets that differ in numbers only. What is accepted for one set is accepted
for the other, and what is turned down is turned down for the same reason after as many checks, if
no name is tied in the scopes in which lines are looked for in bodies. -/

set_option autoImplicit false

namespace JvmPatch

def ClassChoice.renumber (ρ : Renumbering) (choice : ClassChoice) : ClassChoice where
  cls := choice.cls.map ρ.cls
  fields := choice.fields.map (Option.map ρ.field)
  methods := choice.methods.map (Option.map ρ.method)

def Assignment.renumber (ρ : Renumbering) (a : Assignment) : Assignment :=
  a.map (ClassChoice.renumber ρ)

/-- What is paired with other numbers are the pairs with other numbers. -/
theorem forall₂_zip_map {α β γ : Type} (xs : List α) (ys : List β) (f : β → γ) :
    List.Forall₂ (fun e e' => e ∈ xs.zip ys ∧
      e' = (e.1, f e.2)) (xs.zip ys) (xs.zip (ys.map f)) := by
  rw [List.zip_map_right]
  exact forall₂_map_of_mem _

/-- From scopes that differ in numbers only, two programs end with one result or one error and with
such scopes. -/
abbrev SameRun {ε α : Type} (ρ : Renumbering) (set : ClassSet) (m m' : EStateM ε Scope α) : Prop :=
  Agree (Scope.Renumbered ρ set) (fun x y => y = x) m m'

namespace SameRun

variable {ρ : Renumbering} {set : ClassSet}

theorem require (condition : Bool) (reason : Reason) :
    SameRun ρ set (CheckM.require condition reason) (CheckM.require condition reason) := by
  unfold CheckM.require
  split
  · exact .pure rfl
  · exact .throw _ _ _

theorem requireM {test test' : ScopeM Bool}
    (tests : ScopeM.Parallel (Scope.Renumbered ρ set) (Scope.Renumbered ρ set) test test')
    (reason : Reason) :
    SameRun ρ set (CheckM.requireM test reason) (CheckM.requireM test' reason) := by
  intro s t renumbered
  obtain ⟨accepted, left⟩ := tests s t renumbered
  change EndAlike _ _ ((CheckM.require (test.run s).1 reason).run (test.run s).2)
    ((CheckM.require (test'.run t).1 reason).run (test'.run t).2)
  rw [accepted]
  exact require _ reason _ _ left

theorem orReason {ε α : Type} (reason : ε → Reason) (x : Except ε α) :
    SameRun ρ set (CheckM.orReason reason x) (CheckM.orReason reason x) := by
  cases x with
  | ok x => exact .pure rfl
  | error e => exact .throw _ _ _

theorem forM {ε α : Type} {f g : α → EStateM ε Scope PUnit} {xs : List α}
    (each : ∀ x ∈ xs, SameRun ρ set (f x) (g x)) :
    SameRun ρ set (xs.forM f) (xs.forM g) := by
  have elements : List.Forall₂ (fun x y => y = x ∧ x ∈ xs) xs xs :=
    List.forall₂_same.2 fun x member => ⟨rfl, member⟩
  refine (Agree.forM elements fun x y related => ?_).mono fun _ _ _ => rfl
  obtain ⟨rfl, member⟩ := related
  exact (each y member).mono fun _ _ _ => trivial

end SameRun

namespace ClassSet.Renumbered

variable {ρ : Renumbering} {set other : ClassSet} (same : Renumbered ρ set other)
include same

theorem checkClass (block : ClassBlock) (id : ClassId) :
    SameRun ρ set (set.checkClass block id) (other.checkClass block (ρ.cls id)) := by
  have kind : SameRun ρ set (checkKind block.kind (set.classAt id))
      (checkKind block.kind ((set.classAt id).renumber ρ)) := by
    cases block.kind with
    | ordinary => exact .pure rfl
    | interface => exact .require _ _
    | enumeration => exact .require _ _
  have super (l : SupertypeLine) :
      SameRun ρ set (set.checkSuper (set.classAt id) l)
        (other.checkSuper ((set.classAt id).renumber ρ) l) := by
    unfold ClassSet.checkSuper
    split
    · exact .pure rfl
    · have name : ((set.classAt id).renumber ρ).superName = (set.classAt id).superName := rfl
      rw [name]
      cases (set.classAt id).superName with
      | none => exact .throw _ _ _
      | some name => exact .requireM ((same.checkClassName _ _).bind fun _ => .pure _) _
  have interface (l : SupertypeLine) :
      SameRun ρ set (set.checkInterface (set.classAt id) l)
        (other.checkInterface ((set.classAt id).renumber ρ) l) := by
    unfold ClassSet.checkInterface
    split
    · exact .require _ _
    · exact .requireM (same.matchFirst _ _) _
  unfold ClassSet.checkClass
  rw [same.classAt]
  refine (SameRun.require _ _).bind fun _ _ _ => kind.bind fun _ _ _ => ?_
  exact (SameRun.forM fun l _ => super l).bind fun _ _ _ => SameRun.forM fun l _ => interface l

theorem checkField (line : FieldLine) (f : FieldId) :
    SameRun ρ set (set.checkField line f) (other.checkField line (ρ.field f)) := by
  have value : (other.fieldAt (ρ.field f)).value = (set.fieldAt f).value :=
    congrArg FieldDecl.value (same.fieldAt f).decl
  unfold ClassSet.checkField
  dsimp only
  rw [same.fieldName, same.fieldDesc, same.fieldAccess, value]
  refine (SameRun.require _ _).bind fun _ _ _ =>
    (SameRun.orReason _ _).bind fun type type' isType => ?_
  subst isType
  refine (SameRun.requireM (same.typesAgree _ _) _).bind fun _ _ _ =>
    (SameRun.require _ _).bind fun _ _ _ => ?_
  refine (SameRun.require _ _).bind fun _ _ _ => ?_
  split
  · exact .pure rfl
  · exact SameRun.require _ _

theorem checkMethodHead (block : MethodBlock) (m : MethodId) :
    SameRun ρ set (set.checkMethodHead block (set.methodAt m))
      (other.checkMethodHead block (other.methodAt (ρ.method m))) := by
  unfold ClassSet.checkMethodHead MethodDecl.isStatic
  rw [same.methodName, same.methodDesc, same.methodAccess]
  refine (SameRun.require _ _).bind fun _ _ _ =>
    (SameRun.orReason _ _).bind fun type type' isType => .get fun s t renumbered => ?_
  subst isType
  rcases (same.checkMethodTypes block.type type' s t renumbered).cases with
    ⟨x, y, s', t', ran, ran', -, left⟩ | ⟨e, s', t', ran, ran', left⟩
  · rw [ran, ran']
    refine ((SameRun.require _ _).bind fun _ _ _ => (SameRun.require _ _).bind
      fun _ _ _ => ?_) s' t' left
    exact (SameRun.require _ _).bind fun _ _ _ => .pure rfl
  · rw [ran, ran']
    exact .error left

/-- The bodies that a method block is held against are the same. -/
theorem checkBody {block : MethodBlock} {type : MethodDesc} {body : MethodId} {code : Code}
    {scope scope' : Scope} (renumbered : Scope.Renumbered ρ set scope scope')
    (untied : ∀ later, WalkScope ⟨set, body, type⟩ block.insns code scope later →
      later.Untied set) :
    EndAlike (Scope.Renumbered ρ set) (fun x y => y = x)
      ((set.checkBody block type body code).run scope)
      ((other.checkBody block type (ρ.method body) code).run scope') := by
  have contexts : BodyContext.Renumbered ρ ⟨set, body, type⟩ ⟨other, ρ.method body, type⟩ :=
    ⟨same, rfl, rfl⟩
  have walked := contexts.walk block.insns code renumbered untied
  unfold ClassSet.checkBody
  rw [EStateM.run_bind, EStateM.run_bind, EStateM.run_get, EStateM.run_get]
  dsimp only
  revert walked
  cases walk ⟨set, body, type⟩ block.insns code scope <;>
    cases walk ⟨other, ρ.method body, type⟩ block.insns code scope' <;>
      intro walked <;> cases walked
  · exact .error (renumbered.clearBody body)
  · rename_i found found' related
    obtain ⟨left, places⟩ := related
    dsimp only
    rw [places]
    exact .ok rfl (left.recordMatch body _)

/-- The scopes in which the lines of a block for a method are looked for are untied. -/
def BodiesUntied (set : ClassSet) (block : MethodBlock) (owner : ClassId) (m : MethodId)
    (scope : Scope) : Prop :=
  ∀ type next body code later,
    (set.checkMethodHead block (set.methodAt m)).run scope = .ok type next →
    set.bodyOf owner m = some body → (set.methodAt body).code = some code →
      WalkScope ⟨set, body, type⟩ block.insns code next later → later.Untied set

theorem checkMethod (block : MethodBlock) (owner : ClassId) (m : MethodId) {scope scope' : Scope}
    (renumbered : Scope.Renumbered ρ set scope scope')
    (untied : BodiesUntied set block owner m scope) :
    EndAlike (Scope.Renumbered ρ set) (fun x y => y = x) ((set.checkMethod block owner m).run scope)
      ((other.checkMethod block (ρ.cls owner) (ρ.method m)).run scope') := by
  unfold ClassSet.checkMethod
  refine (same.checkMethodHead block m _ _ renumbered).bind
    fun type type' next next' ran isType left => ?_
  subst isType
  split
  · rw [same.bodyOf, same.methodName]
    cases found : set.bodyOf owner m with
    | none => exact .error left
    | some body =>
      dsimp only [Option.map_some]
      rw [same.methodCode]
      cases isCode : (set.methodAt body).code with
      | none => exact .error left
      | some code => exact same.checkBody left fun later => untied _ _ _ _ _ ran found isCode
  · exact .ok rfl left

omit same in
theorem pass {check check' : CheckM Unit} {s t : Scope}
    (checks : EndAlike (Scope.Renumbered ρ set) (fun x y => y = x)
    (check.run s) (check'.run t)) (n : Nat) (element : String) :
    EndAlike (Scope.Renumbered ρ set) (fun x y => y = x) ((VerifyM.pass n element check).run s)
      ((VerifyM.pass n element check').run t) := by
  unfold VerifyM.pass
  rw [EStateM.run_bind, EStateM.run_bind, EStateM.run_get, EStateM.run_get]
  dsimp only
  rcases checks.cases with ⟨_, _, s', t', ran, ran', -, left⟩ | ⟨reason, s', t', ran, ran', left⟩
  · rw [ran, ran']
    exact .ok rfl left
  · rw [ran, ran']
    exact .error left

omit same in
theorem verifyElement {α β : Type} {κ : α → β} {mode : Mode} {check : α → CheckM Unit}
    {check' : β → CheckM Unit} {assigned : Option α} {s t : Scope}
    (renumbered : Scope.Renumbered ρ set s t) (checks : mode ≠ .add → ∀ x, assigned = some x →
      EndAlike (Scope.Renumbered ρ set) (fun x y => y = x) ((check x).run s) ((check' (κ x)).run t))
    (element : String) (kind : ElementKind) (n : Nat) :
    EndAlike (Scope.Renumbered ρ set) (fun x y => y = x)
      ((ClassSet.verifyElement mode element kind check assigned n).run s)
      ((ClassSet.verifyElement mode element kind check' (assigned.map κ) n).run t) := by
  unfold ClassSet.verifyElement
  by_cases added : mode = .add
  · rw [if_pos added, if_pos added]
    exact .ok rfl renumbered
  rw [if_neg added, if_neg added]
  cases assigned with
  | none => exact .error renumbered
  | some x => exact pass (checks added x rfl) n element

variable {script : Script} {a : Assignment} {start start' : Scope}

theorem verifyClass {e : ClassBlock × ClassChoice} {n : Nat} {s t : Scope}
    (comes : ComesTo (fun n e => set.verifyClass e.1 e.2 n) (script.classes.zip a) 0 start e n s)
    (untied : ∀ m scope, ComesToMethod set script a start m scope →
      BodiesUntied set m.block m.cls m.handle scope)
    (renumbered : Scope.Renumbered ρ set s t) :
    EndAlike (Scope.Renumbered ρ set) (fun x y => y = x) ((set.verifyClass e.1 e.2 n).run s)
      ((other.verifyClass e.1 (e.2.renumber ρ) n).run t) := by
  unfold ClassSet.verifyClass
  by_cases added : e.1.mode = .add
  · rw [if_pos added, if_pos added]
    exact .ok rfl renumbered
  rw [if_neg added, if_neg added]
  cases isClass : e.2.cls with
  | none =>
    rw [ClassChoice.renumber, isClass]
    exact .error renumbered
  | some cls =>
    rw [ClassChoice.renumber, isClass]
    refine (pass (same.checkClass e.1 cls _ _ renumbered) n e.1.describe).bind
      fun n₁ _ s₁ t₁ head isSame left => ?_
    subst isSame
    refine (EndAlike.foldlM (Q := fun x y => y = x) (forall₂_zip_map _ _ _)
      (fun f _ k k' u v _ isPair isNumber related => ?_) rfl left).bind
      fun n₂ _ s₂ t₂ fields isSame left => ?_
    · obtain ⟨-, rfl⟩ := isPair
      subst isNumber
      exact verifyElement related (fun _ x _ => same.checkField f.1 x _ _ related) _ _ _
    · subst isSame
      refine EndAlike.foldlM (Q := fun x y => y = x) (forall₂_zip_map _ _ _)
        (fun m _ k k' u v here isPair isNumber related => ?_) rfl left
      obtain ⟨-, rfl⟩ := isPair
      subst isNumber
      refine verifyElement related (fun kept handle assigned => ?_) _ _ _
      obtain ⟨block, choice⟩ := m
      obtain rfl : choice = some handle := assigned
      exact same.checkMethod block cls handle related
        (untied _ _ (.intro comes added isClass head fields here kept))

/-- The checks of an assignment end alike for both sets. -/
theorem verify (untied : ∀ m scope, ComesToMethod set script a start m scope →
      BodiesUntied set m.block m.cls m.handle scope)
        (renumbered : Scope.Renumbered ρ set start start') :
    EndAlike (Scope.Renumbered ρ set) (fun x y => y = x) ((set.verify script a).run start)
      ((other.verify script (a.renumber ρ)).run start') := by
  unfold ClassSet.verify
  refine (EndAlike.foldlM (Q := fun x y => y = x) (forall₂_zip_map _ _ _)
    (fun e _ n _ s t comes isPair isNumber related => ?_) rfl renumbered).bind
    fun _ _ s t _ _ left => .ok rfl left
  obtain ⟨-, rfl⟩ := isPair
  subst isNumber
  exact same.verifyClass comes untied related

end ClassSet.Renumbered

/-! ### The order of the search

Candidates are tried in the same order and have the same fate. -/

section Lists

theorem options_map {α β : Type} (f : α → β) (xs : List α) :
    options (xs.map f) = (options xs).map (Option.map f) := by
  cases xs with
  | nil => rfl
  | cons x xs => simp [options]

theorem narrow_map {α β : Type} {f : α → β} (ident : Ident) (name : α → String) (name' : β → String)
    (same : ∀ x, name' (f x) = name x) (xs : List α) :
    ident.narrow name' (xs.map f) = (ident.narrow name xs).map f := by
  unfold Ident.narrow
  split
  · rw [List.filter_map]
    exact congrArg _ (List.filter_congr fun x _ => by rw [Function.comp_apply, same])
  · rfl

theorem mem_of_mem_options {α : Type} {ident : Ident} {name : α → String} {xs : List α} {x : α}
    (member : some x ∈ options (ident.narrow name xs)) : x ∈ xs := by
  have narrowed : x ∈ ident.narrow name xs := by
    revert member
    cases ident.narrow name xs <;> simp [options]
  unfold Ident.narrow at narrowed
  split at narrowed
  · exact (List.mem_filter.1 narrowed).1
  · exact narrowed

theorem selections_map {α β : Type} (f : α → β) (xss : List (List α)) :
    selections (xss.map (List.map f)) = (selections xss).map (List.map f) := by
  induction xss with
  | nil => rfl
  | cons xs xss ih =>
    rw [List.map_cons, selections, selections, ih]
    simp only [List.flatMap_map, List.map_flatMap, List.map_map]
    rfl

end Lists

/-- What has been accepted differs in numbers only, and is known. -/
structure Resolution.Renumbered (ρ : Renumbering) (set : ClassSet) (r r' : Resolution) : Prop where
  scope : Scope.Renumbered ρ set r.scope r'.scope
  known : ∀ choice ∈ r.assignment, choice.Known set
  assignment : r'.assignment = r.assignment.renumber ρ

/-- The scopes in which instructions are looked for while an assignment is tried. -/
inductive TrialWalk (set : ClassSet) (script : Script) (a : Assignment) : Scope → Prop where
  | intro {claimed bound t scope type next body code later} :
      (set.claimAll script a).run {} = .ok claimed bound →
      ComesToMethod set script a bound t scope →
      (set.checkMethodHead t.block (set.methodAt t.handle)).run scope = .ok type next →
      t.body? set = some body → (set.methodAt body).code = some code →
      WalkScope ⟨set, body, type⟩ t.block.insns code next later → TrialWalk set script a later

/-- Only members that the script names are bound in these scopes. -/
theorem TrialWalk.steps {set : ClassSet} {script : Script} {a : Assignment} {scope : Scope}
    (walk : TrialWalk set script a scope) :
    ({} : Scope).Steps (script.namesMembers set a) scope := by
  cases walk with
  | intro claims comes head isBody isCode arises =>
    exact (TrialScope.body claims comes head isBody isCode arises.body).steps_of_allows
      (set.allows_namesMembers script a)

namespace ClassSet

/-- The assignments that are tried for a script, in order. -/
def trials (set : ClassSet) (script : Script) : List Assignment :=
  selections (script.classes.map set.choices)

/-- An assignment is tried for a script, since none of those before it is accepted. -/
def Tries (set : ClassSet) (script : Script) (a : Assignment) : Prop :=
  ∃ before after, set.trials script = before ++ a :: after ∧
    ∀ b ∈ before, ∃ e, set.attempt script {} (set.verify script) b = .error e

theorem Tries.mem {set : ClassSet} {script : Script} {a : Assignment} (tries : set.Tries script a) :
    a ∈ set.trials script := by
  obtain ⟨before, after, split, -⟩ := tries
  rw [split]
  exact List.mem_append_right before List.mem_cons_self

theorem WellFormed.known_of_mem_choices {set : ClassSet} (formed : set.WellFormed)
    {block : ClassBlock} {choice : ClassChoice} (member : choice ∈ set.choices block) :
    choice.Known set := by
  obtain ⟨-, fields, methods⟩ := (mem_choicesFrom _ _ _ _).1 member
  rw [mem_selections, List.forall₂_map_right_iff] at fields methods
  constructor
  · intro f chosen
    obtain ⟨line, -, isOption⟩ := exists_mem_of_mem_right fields.flip chosen
    change some f ∈ set.fieldOptions choice.cls line at isOption
    unfold fieldOptions at isOption
    split at isOption
    · cases List.mem_singleton.1 isOption
    · cases List.mem_singleton.1 isOption
    · exact (formed.fields _ f (List.mem_filter.1 (mem_of_mem_options isOption)).1).1
  · intro m chosen
    obtain ⟨block, -, isOption⟩ := exists_mem_of_mem_right methods.flip chosen
    change some m ∈ set.methodOptions choice.cls block at isOption
    unfold methodOptions at isOption
    split at isOption
    · cases List.mem_singleton.1 isOption
    · cases List.mem_singleton.1 isOption
    · exact formed.views _ m (List.mem_filter.1 (mem_of_mem_options isOption)).1

theorem WellFormed.known_of_tries {set : ClassSet} (formed : set.WellFormed) {script : Script}
    {a : Assignment} (tries : set.Tries script a) : ∀ choice ∈ a, choice.Known set := by
  intro choice inside
  obtain ⟨options, isChoices, isOption⟩ :=
    exists_mem_of_mem_right ((mem_selections _ a).1 tries.mem).flip inside
  obtain ⟨block, -, rfl⟩ := List.mem_map.1 isChoices
  exact formed.known_of_mem_choices isOption

end ClassSet

namespace ClassSet.Renumbered

variable {ρ : Renumbering} {set other : ClassSet} (same : Renumbered ρ set other)
include same

theorem classOptions (block : ClassBlock) :
    other.classOptions block = (set.classOptions block).map (Option.map ρ.cls) := by
  unfold ClassSet.classOptions
  split
  · rfl
  · rw [same.candidates,
      narrow_map _ (fun id => (set.classAt id).name) (fun id => (other.classAt id).name) same.name,
      options_map]

theorem fieldOptions (cls : Option ClassId) (line : FieldLine) :
    other.fieldOptions (cls.map ρ.cls) line =
      (set.fieldOptions cls line).map (Option.map ρ.field) := by
  unfold ClassSet.fieldOptions
  cases line.mode <;> cases cls <;> try rfl
  all_goals
    dsimp only [Option.map_some]
    rw [same.fieldCandidates,
      narrow_map _ (fun f => (set.fieldAt f).name) (fun f => (other.fieldAt f).name)
      same.fieldName, options_map]

theorem methodOptions (cls : Option ClassId) (block : MethodBlock) :
    other.methodOptions (cls.map ρ.cls) block =
      (set.methodOptions cls block).map (Option.map ρ.method) := by
  unfold ClassSet.methodOptions
  cases block.mode <;> cases cls <;> try rfl
  all_goals
    dsimp only [Option.map_some]
    rw [same.methodCandidates,
      narrow_map _ (fun m => (set.methodAt m).name) (fun m => (other.methodAt m).name)
      same.methodName, options_map]

theorem choices (block : ClassBlock) :
    other.choices block = (set.choices block).map (ClassChoice.renumber ρ) := by
  have fields (cls : Option ClassId) :
      selections (block.fields.map (other.fieldOptions (cls.map ρ.cls))) =
      (selections (block.fields.map (set.fieldOptions cls))).map
        (List.map (Option.map ρ.field)) := by
    rw [← selections_map, List.map_map]
    exact congrArg (fun f => selections (block.fields.map f)) (funext (same.fieldOptions cls))
  have methods (cls : Option ClassId) :
      selections (block.methods.map (other.methodOptions (cls.map ρ.cls))) =
      (selections (block.methods.map (set.methodOptions cls))).map
        (List.map (Option.map ρ.method)) := by
    rw [← selections_map, List.map_map]
    exact congrArg (fun f => selections (block.methods.map f)) (funext (same.methodOptions cls))
  unfold ClassSet.choices choicesFrom
  rw [same.classOptions]
  simp only [List.flatMap_map, List.map_flatMap, List.map_map, fields, methods]
  rfl

theorem trials (script : Script) :
    other.trials script = (set.trials script).map (Assignment.renumber ρ) := by
  have blocks : script.classes.map other.choices =
      (script.classes.map set.choices).map (List.map (ClassChoice.renumber ρ)) := by
    rw [List.map_map]
    exact congrArg (fun f => script.classes.map f) (funext same.choices)
  unfold ClassSet.trials
  rw [blocks, selections_map]
  rfl

omit same in
theorem claim {α : Type} {κ : α → α} {mode : Mode} {ident : Ident}
    {bind bind' : α → Scope → Option Scope} {assigned : Option α}
    (binds : ∀ x, assigned = some x → ∀ s t, Scope.Renumbered ρ set s t →
      Option.Rel (Scope.Renumbered ρ set) (bind x s)
      (bind' (κ x) t)) (element : String) (kind : ElementKind) (n : Nat) :
    SameRun ρ set (ClassSet.claim mode element kind ident bind assigned n)
      (ClassSet.claim mode element kind ident bind' (assigned.map κ) n) := by
  unfold ClassSet.claim
  split
  · exact .pure rfl
  cases assigned with
  | none => exact .throw _ _ _
  | some x =>
    dsimp only [Option.map_some]
    split
    · refine .get fun s t renumbered => ?_
      have bound := binds x rfl s t renumbered
      revert bound
      cases bind x s <;> cases bind' (κ x) t <;> intro bound <;> cases bound
      · exact .error renumbered
      · exact .ok rfl ‹_›
    · exact .pure rfl

theorem claimClass (block : ClassBlock) {choice : ClassChoice}
    (known : choice.Known set) (n : Nat) :
    SameRun ρ set (set.claimClass block choice n)
      (other.claimClass block (choice.renumber ρ) n) := by
  unfold ClassSet.claimClass
  split
  · exact .pure rfl
  rename_i kept
  cases isClass : choice.cls with
  | none =>
    intro s t renumbered
    simp only [ClassChoice.renumber, isClass, ClassSet.claim, if_neg kept]
    exact .error renumbered
  | some cls =>
    simp only [ClassChoice.renumber, isClass, Option.map_some, Option.getD_some]
    refine (claim (fun id _ s t renumbered => renumbered.bindClass? _ id) _ _ n).bind
      fun k k' isSame => ?_
    subst isSame
    refine (Agree.foldlM (Q := fun x y => y = x) (forall₂_zip_map _ _ _)
      (fun n n' f f' isNumber isPair => ?_) rfl).bind
      fun k k' isSame => ?_
    · obtain ⟨member, rfl⟩ := isPair
      subst isNumber
      refine claim (fun x assigned s t renumbered => renumbered.bindField? same cls _ ?_) _ _ n'
      exact known.fields x (assigned ▸ (List.of_mem_zip member).2)
    · subst isSame
      refine Agree.foldlM (Q := fun x y => y = x) (forall₂_zip_map _ _ _)
        (fun n n' m m' isNumber isPair => ?_) rfl
      obtain ⟨member, rfl⟩ := isPair
      subst isNumber
      refine claim (fun x assigned s t renumbered => renumbered.bindMethod? same cls _ ?_) _ _ n'
      exact known.methods x (assigned ▸ (List.of_mem_zip member).2)

theorem claimAll (script : Script) {a : Assignment} (known : ∀ choice ∈ a, choice.Known set) :
    SameRun ρ set (set.claimAll script a) (other.claimAll script (a.renumber ρ)) := by
  refine Agree.foldlM (Q := fun x y => y = x) (forall₂_zip_map _ _ _)
    (fun n n' e e' isNumber isPair => ?_) rfl
  obtain ⟨member, rfl⟩ := isPair
  subst isNumber
  exact same.claimClass e.1 (known e.2 (List.of_mem_zip member).2) n'

/-- An assignment has the same fate in both sets. -/
theorem attempt (script : Script) {a : Assignment} (known : ∀ choice ∈ a, choice.Known set)
    (untied : ∀ scope, TrialWalk set script a scope → scope.Untied set) :
    SameEnd (Resolution.Renumbered ρ set) (set.attempt script {} (set.verify script) a)
      (other.attempt script {} (other.verify script) (a.renumber ρ)) := by
  unfold ClassSet.attempt
  rcases (same.claimAll script known {} {} (.empty ρ set)).cases with
    ⟨n, _, s, t, claims, claims', rfl, left⟩ | ⟨e, s, t, claims, claims', -⟩
  · have bodies : ∀ m scope, ComesToMethod set script a s m scope →
        BodiesUntied set m.block m.cls m.handle scope :=
      fun m scope comes type next body code later head isBody isCode arises =>
        untied later (.intro claims comes head isBody isCode arises)
    rw [claims, claims']
    dsimp only
    rcases (same.verify bodies left).cases with
      ⟨_, _, s', t', ran, ran', -, left⟩ | ⟨e, s', t', ran, ran', -⟩
    · rw [ran, ran']
      exact .ok ⟨left, known, rfl⟩
    · rw [ran, ran']
      exact .error _
  · rw [claims, claims']
    exact .error e

omit same in
/-- What trials come to depends on the results up to the first success only. -/
theorem takeIn {trials : List Assignment}
    {attempt attempt' : Assignment → Except Rejection Resolution}
    (alike : ∀ before a after, trials = before ++ a :: after →
      (∀ b ∈ before, ∃ e, attempt b = .error e) →
      SameEnd (Resolution.Renumbered ρ set) (attempt a) (attempt' a)) (best : Option Rejection) :
    SameEnd (Resolution.Renumbered ρ set)
      (match SearchState.takeIn (trials.map attempt) best with
      | .accepted resolution => .ok resolution
      | .searching _ (some best) => .error (NoMatch.mk best.element best.reason)
      | .searching _ none => .error ⟨"patch", .noCandidates⟩)
      (match SearchState.takeIn (trials.map attempt') best with
      | .accepted resolution => .ok resolution
      | .searching _ (some best) => .error ⟨best.element, best.reason⟩
      | .searching _ none => .error ⟨"patch", .noCandidates⟩) := by
  induction trials generalizing best with
  | nil => cases best <;> exact .error _
  | cons a trials ih =>
    have one := alike [] a trials rfl fun _ member => absurd member List.not_mem_nil
    rw [List.map_cons, List.map_cons]
    cases result : attempt a <;> cases result' : attempt' a <;>
      rw [result, result'] at one <;> cases one
    · refine ih (fun before b after split rejected => ?_) _
      exact alike (a :: before) b after
        (congrArg (a :: ·) split) (List.forall_mem_cons.2 ⟨⟨_, result⟩, rejected⟩)
    · exact .ok ‹_›

/-- The search ends alike in both sets, if no name is tied in the scopes that arise in it. -/
theorem search (script : Script) (batch : Nat)
    (untied : ∀ a scope, set.Tries script a → TrialWalk set script a scope → scope.Untied set) :
    SameEnd (Resolution.Renumbered ρ set) (set.search script {} (set.verify script) batch)
      (other.search script {} (other.verify script) batch) := by
  have outcomes (u : ClassSet) :
      (u.readings none script.wheels).map (u.trial script {} (u.verify script)) =
      (u.trials script).map (u.attempt script {} (u.verify script)) := by
    rw [ClassSet.trials, ← map_assignmentAt_readings, List.map_map]
    rfl
  rw [search_eq_takeIn, search_eq_takeIn, outcomes, outcomes, same.trials, List.map_map]
  refine takeIn (fun before a after split rejected => ?_) none
  have tries : set.Tries script a := ⟨before, after, split, rejected⟩
  exact same.attempt script (same.formed.known_of_tries tries) fun scope => untied a scope tries

theorem resolve (script : Script) (o : ResolveOptions)
    (untied : ∀ a scope, set.Tries script a → TrialWalk set script a scope → scope.Untied set) :
    SameEnd (Resolution.Renumbered ρ set) (set.resolve script {} (set.verify script) o)
      (other.resolve script {} (other.verify script) o) := by
  unfold ClassSet.resolve
  split
  · exact (same.search script o.batch untied).mapError ResolveError.noMatch
  · exact .error ResolveError.capacityOverflow

end ClassSet.Renumbered

end JvmPatch
