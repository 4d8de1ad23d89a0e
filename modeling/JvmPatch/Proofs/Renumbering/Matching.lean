import JvmPatch.Proofs.Agreement
import JvmPatch.Proofs.Renumbering.Scopes
import JvmPatch.Proofs.Resolve.Members
import JvmPatch.Proofs.Resolve.Scopes

/-! Matching in class sets that differ in numbers only. What a pattern matches and what is bound on
the way is the same in both, and so are the places where the lines of a block are found, if no name
is tied in the scopes in which names of members are looked up. -/

set_option autoImplicit false

namespace JvmPatch

namespace ScopeM

variable {α β : Type} {R S T : Scope → Scope → Prop}

/-- From related scopes, the tests have one result and leave related scopes. -/
def Parallel (R S : Scope → Scope → Prop) (test test' : ScopeM α) : Prop :=
  ∀ s t, R s t → (test'.run t).1 = (test.run s).1 ∧ S (test.run s).2 (test'.run t).2

namespace Parallel

theorem mono {test test' : ScopeM α} (tests : Parallel R S test test')
    (more : ∀ s t, S s t → T s t) :
    Parallel R T test test' :=
  fun s t related => (tests s t related).imp_right (more _ _)

theorem before {test test' : ScopeM α} (tests : Parallel R S test test')
    (less : ∀ s t, T s t → R s t) :
    Parallel T S test test' :=
  fun s t related => tests s t (less s t related)

protected theorem pure (x : α) : Parallel R R (pure x) (pure x) := fun _ _ related => ⟨rfl, related⟩

protected theorem bind {first first' : ScopeM α} {next next' : α → ScopeM β}
    (one : Parallel R S first first') (rest : ∀ x, Parallel S T (next x) (next' x)) :
    Parallel R T (first >>= next) (first' >>= next') := by
  intro s t related
  obtain ⟨same, left⟩ := one s t related
  rw [run_bind, run_bind, same]
  exact rest _ _ _ left

protected theorem update {f g : Scope → Option Scope}
    (binds : ∀ s t, R s t → Option.Rel S (f s) (g t)) (weaker : ∀ s t, R s t → S s t) :
    Parallel R S (update f) (update g) := by
  intro s t related
  rw [run_update, run_update]
  have bound := binds s t related
  revert bound
  cases f s <;> cases g t <;> intro bound <;> cases bound
  · exact ⟨rfl, weaker s t related⟩
  · exact ⟨rfl, ‹_›⟩

protected theorem both {first first' second second' : ScopeM Bool} (one : Parallel R S first first')
    (two : Parallel S T second second') (weaker : ∀ s t, S s t → T s t) :
    Parallel R T (both first second) (both first' second') := by
  refine one.bind fun accepted => ?_
  cases accepted with
  | true => exact two
  | false => exact (Parallel.pure false).mono weaker

protected theorem all {γ δ : Type} {test : γ → ScopeM Bool} {test' : δ → ScopeM Bool}
    {xs : List γ} {ys : List δ}
    (each : List.Forall₂ (fun x y => Parallel R R (test x) (test' y)) xs ys) :
    Parallel R R (ScopeM.all test xs) (ScopeM.all test' ys) := by
  induction each with
  | nil => exact .pure true
  | cons one _ ih => exact one.both ih fun _ _ related => related

end Parallel

end ScopeM

namespace ClassSet.Renumbered

open ScopeM

variable {ρ : Renumbering} {set other : ClassSet} (same : Renumbered ρ set other)
include same

theorem checkClassName (pattern name : String) :
    Parallel (Scope.Renumbered ρ set) (Scope.Renumbered ρ set) (set.checkClassName pattern name)
      (other.checkClassName pattern name) := by
  intro s t renumbered
  rw [run_checkClassName, run_checkClassName]
  split
  · exact ⟨rfl, renumbered⟩
  split
  · exact ⟨rfl, renumbered⟩
  rw [checkWeakName, checkWeakName, renumbered.class?]
  cases s.class? pattern with
  | some bound =>
    dsimp only [Option.map_some]
    rw [same.name]
    exact ⟨rfl, renumbered⟩
  | none =>
    dsimp only [Option.map_none]
    rw [same.find?]
    cases set.find? name with
    | none => exact ⟨rfl, renumbered⟩
    | some id =>
      have bound := renumbered.bindClass? pattern id
      dsimp only [Option.map_some, Option.bind_some]
      revert bound
      cases s.bindClass? pattern id <;> cases t.bindClass? pattern (ρ.cls id) <;>
        intro bound <;> cases bound
      · exact ⟨rfl, renumbered⟩
      · exact ⟨rfl, ‹_›⟩

theorem checkType (pattern type : TypeDesc) :
    Parallel (Scope.Renumbered ρ set) (Scope.Renumbered ρ set) (set.checkType pattern type)
      (other.checkType pattern type) := by
  unfold ClassSet.checkType
  split
  · exact .pure _
  split
  · exact same.checkClassName _ _
  · exact .pure _

theorem typesAgree (pattern type : TypeDesc) :
    Parallel (Scope.Renumbered ρ set) (Scope.Renumbered ρ set) (set.typesAgree pattern type)
      (other.typesAgree pattern type) :=
  (same.checkType pattern type).bind fun _ => .pure _

theorem checkParams (ps ts : List TypeDesc) (soFar : TypeCheck) :
    Agree (Scope.Renumbered ρ set) (fun x y => y = x) (set.checkParams ps ts soFar)
      (other.checkParams ps ts soFar) := by
  induction ps generalizing ts soFar with
  | nil => exact .pure rfl
  | cons p ps ih =>
    cases ts with
    | nil => exact .pure rfl
    | cons type ts =>
      intro s t renumbered
      obtain ⟨check, left⟩ := same.checkType p type s t renumbered
      rw [run_checkParams_cons, run_checkParams_cons, check]
      split
      · exact ih ts _ _ _ left
      · exact .error left

theorem checkMethodTypes (pattern type : MethodDesc) :
    Agree (Scope.Renumbered ρ set) (fun x y => y = x) (set.checkMethodTypes pattern type)
      (other.checkMethodTypes pattern type) := by
  unfold ClassSet.checkMethodTypes
  split
  · exact .throw _ _ _
  · refine (same.checkParams _ _ _).bind fun x y isSame => ?_
    rw [isSame]
    exact same.checkParams _ _ _

theorem methodTypesAgree (pattern type : MethodDesc) :
    Parallel (Scope.Renumbered ρ set) (Scope.Renumbered ρ set) (set.methodTypesAgree pattern type)
      (other.methodTypesAgree pattern type) := by
  intro s t renumbered
  change (other.methodTypesAgree pattern type t).1 = (set.methodTypesAgree pattern type s).1 ∧
    Scope.Renumbered ρ set (set.methodTypesAgree pattern type s).2
      (other.methodTypesAgree pattern type t).2
  unfold ClassSet.methodTypesAgree
  rcases (same.checkMethodTypes pattern type s t renumbered).cases with
    ⟨x, y, s', t', ran, ran', -, left⟩ | ⟨e, s', t', ran, ran', left⟩
  · rw [ran, ran']
    exact ⟨rfl, left⟩
  · rw [ran, ran']
    exact ⟨rfl, left⟩

theorem matchFirst (pattern : String) (names : List String) :
    Parallel (Scope.Renumbered ρ set) (Scope.Renumbered ρ set) (set.matchFirst pattern names)
      (other.matchFirst pattern names) := by
  induction names with
  | nil => exact .pure false
  | cons name names ih =>
    intro s t renumbered
    obtain ⟨check, left⟩ := same.checkClassName pattern name s t renumbered
    rw [run_matchFirst_cons, run_matchFirst_cons, check]
    split
    · exact ⟨rfl, left⟩
    · exact ih s t renumbered

theorem meantMethod? (owner name desc : String) :
    other.meantMethod? owner name desc =
      (set.meantMethod? owner name desc).map (Prod.map ρ.cls ρ.method) := by
  rw [ClassSet.meantMethod?, ClassSet.meantMethod?, same.find?]
  cases set.find? owner with
  | none => rfl
  | some id =>
    dsimp only [Option.map_some, Option.bind_some]
    rw [same.findMethod]
    cases set.findMethod id name desc <;> rfl

theorem meantField? (owner name desc : String) :
    other.meantField? owner name desc =
      (set.meantField? owner name desc).map (Prod.map ρ.cls ρ.field) := by
  rw [ClassSet.meantField?, ClassSet.meantField?, same.find?]
  cases set.find? owner with
  | none => rfl
  | some id =>
    dsimp only [Option.map_some, Option.bind_some]
    rw [same.findField]
    cases set.findField id name desc <;> rfl

end ClassSet.Renumbered

/-- Two bodies in which patterns are matched differ in numbers only. -/
structure BodyContext.Renumbered (ρ : Renumbering) (cx cx' : BodyContext) : Prop where
  classes : ClassSet.Renumbered ρ cx.classes cx'.classes
  body : cx'.body = ρ.method cx.body
  type : cx'.type = cx.type

/-- Two scopes differ in numbers only, and no name is tied in them. -/
def Scope.RenumberedUntied (ρ : Renumbering) (set : ClassSet) (scope other : Scope) : Prop :=
  Scope.Renumbered ρ set scope other ∧ scope.Untied set

theorem BodyContext.nameTest_alike {α : Type} [DecidableEq α] {ρ : Renumbering} {set : ClassSet}
    {κ : α → α} (injective : κ.Injective) {meant meant' : Option (ClassId × α)}
    (isMeant : meant' = meant.map (Prod.map ρ.cls κ))
    {standsFor standsFor' : ClassId → Scope → Option α}
    {bind bind' : ClassId → α → Scope → Option Scope}
    (stands : ∀ cls s t, Scope.RenumberedUntied ρ set s t →
      standsFor' (ρ.cls cls) t = (standsFor cls s).map κ)
        (binds : ∀ cls x, meant = some (cls, x) → ∀ s t, Scope.Renumbered ρ set s t →
      Option.Rel (Scope.Renumbered ρ set) (bind cls x s) (bind' (ρ.cls cls) (κ x) t)) :
    ScopeM.Parallel (Scope.RenumberedUntied ρ set) (Scope.Renumbered ρ set)
      (nameTest meant standsFor bind)
      (nameTest meant' standsFor' bind') := by
  intro s t related
  subst isMeant
  cases meant with
  | none => exact ⟨rfl, related.1⟩
  | some e =>
    obtain ⟨cls, x⟩ := e
    rw [Option.map_some, Prod.map_apply, run_nameTest, run_nameTest, stands cls s t related]
    cases standsFor cls s with
    | some bound =>
      refine ⟨?_, related.1⟩
      rw [Bool.eq_iff_iff]
      simp [injective.eq_iff]
    | none =>
      have bound := binds cls x rfl s t related.1
      dsimp only [Option.map_none]
      revert bound
      cases bind cls x s <;> cases bind' (ρ.cls cls) (κ x) t <;> intro bound <;> cases bound
      · exact ⟨rfl, related.1⟩
      · exact ⟨rfl, ‹_›⟩

namespace BodyContext.Renumbered

open ScopeM

variable {ρ : Renumbering} {cx cx' : BodyContext} (alike : BodyContext.Renumbered ρ cx cx')
include alike

theorem matchLabel (pattern : LabelRef) (l : Label) :
    Parallel (Scope.Renumbered ρ cx.classes) (Scope.Renumbered ρ cx.classes)
      (cx.matchLabel pattern l)
      (cx'.matchLabel pattern l) := by
  cases pattern with
  | any => exact .pure true
  | weak name =>
    refine .update (fun s t renumbered => ?_) fun _ _ renumbered => renumbered
    rw [alike.body]
    exact renumbered.bindLabel? cx.body name l

theorem matchType (pattern : TypeDesc) (found : Except DescriptorError TypeDesc) :
    Parallel (Scope.Renumbered ρ cx.classes) (Scope.Renumbered ρ cx.classes)
      (cx.matchType pattern found)
      (cx'.matchType pattern found) := by
  cases found with
  | ok type => exact alike.classes.typesAgree _ _
  | error e => exact .pure false

theorem matchClassOperand (pattern : Operand TypeDesc) (operand : String) :
    Parallel (Scope.Renumbered ρ cx.classes) (Scope.Renumbered ρ cx.classes)
      (cx.matchClassOperand pattern operand)
      (cx'.matchClassOperand pattern operand) := by
  cases pattern with
  | any => exact .pure true
  | is type => exact alike.matchType _ _

theorem matchOwner (pattern : Ident) (owner : String) :
    Parallel (Scope.RenumberedUntied ρ cx.classes) (Scope.RenumberedUntied ρ cx.classes)
      (cx.matchOwner pattern owner)
      (cx'.matchOwner pattern owner) := by
  intro s t related
  obtain ⟨accepted, left⟩ := (alike.classes.checkClassName pattern.text owner).bind
    (fun check => .pure check.accepted) s t related.1
  obtain ⟨fields, methods⟩ := cx.matchOwner_keeps_members pattern owner s
  exact ⟨accepted, left, related.2.congr methods fields⟩

theorem matchMethodType (pattern : MethodDesc) (desc : String) :
    Parallel (Scope.Renumbered ρ cx.classes) (Scope.Renumbered ρ cx.classes)
      (cx.matchMethodType pattern desc)
      (cx'.matchMethodType pattern desc) := by
  unfold BodyContext.matchMethodType
  split
  · exact alike.classes.methodTypesAgree _ _
  · exact .pure false

theorem matchFieldName (pattern : Ident) (patternDesc owner name desc : String) :
    Parallel (Scope.RenumberedUntied ρ cx.classes) (Scope.Renumbered ρ cx.classes)
      (cx.matchFieldName pattern patternDesc owner name desc)
        (cx'.matchFieldName pattern patternDesc owner name desc) := by
  rw [matchFieldName_eq, matchFieldName_eq]
  split
  · refine nameTest_alike ρ.field.injective (alike.classes.meantField? owner name desc) ?_ ?_
    · exact fun cls s t related => related.1.field? alike.classes related.2 cls _
    · exact fun cls f meant s t renumbered =>
        renumbered.bindField? alike.classes cls _ (alike.classes.formed.meantField meant)
  · exact fun s t related => ⟨rfl, related.1⟩

theorem matchMethodName (pattern : Ident) (patternDesc owner name desc : String) :
    Parallel (Scope.RenumberedUntied ρ cx.classes) (Scope.Renumbered ρ cx.classes)
      (cx.matchMethodName pattern patternDesc owner name desc)
      (cx'.matchMethodName pattern patternDesc owner name desc) := by
  rw [matchMethodName_eq, matchMethodName_eq]
  split
  · refine nameTest_alike ρ.method.injective (alike.classes.meantMethod? owner name desc) ?_ ?_
    · exact fun cls s t related => related.1.method? alike.classes related.2 cls _
    · exact fun cls m meant s t renumbered =>
        renumbered.bindMethod? alike.classes cls _ (alike.classes.formed.meantMethod meant)
  · exact fun s t related => ⟨rfl, related.1⟩

omit alike in
theorem onlyIf {R S : Scope → Scope → Prop} (condition : Bool) {test test' : ScopeM Bool}
    (tests : Parallel R S test test') (weaker : ∀ s t, R s t → S s t) :
    Parallel R S (BodyContext.onlyIf condition test) (BodyContext.onlyIf condition test') := by
  cases condition with
  | true => exact tests
  | false => exact (Parallel.pure false).mono weaker

/-- A pattern matches the same instructions in both bodies. -/
theorem matchInsn (pattern : Pattern) (insn : Insn) :
    Parallel (Scope.RenumberedUntied ρ cx.classes) (Scope.Renumbered ρ cx.classes)
      (cx.matchInsn pattern insn)
      (cx'.matchInsn pattern insn) := by
  have forget : ∀ s t, Scope.RenumberedUntied ρ cx.classes s t →
      Scope.Renumbered ρ cx.classes s t :=
    fun _ _ related => related.1
  have keep : ∀ s t, Scope.Renumbered ρ cx.classes s t → Scope.Renumbered ρ cx.classes s t :=
    fun _ _ renumbered => renumbered
  unfold BodyContext.matchInsn
  split
  case h_1 => exact (alike.matchLabel _ _).before forget
  case h_3 =>
    rw [alike.type]
    exact (Parallel.pure _).mono forget
  case h_9 => exact (alike.matchClassOperand _ _).before forget
  case h_12 => exact (onlyIf _ (alike.matchLabel _ _) keep).before forget
  case h_13 =>
    refine (onlyIf _ ((alike.matchLabel _ _).both (.all ?_) keep) keep).before forget
    exact List.forall₂_same.2 fun p _ => alike.matchLabel _ _
  case h_14 =>
    refine (onlyIf _ ((alike.matchLabel _ _).both (.all ?_) keep) keep).before forget
    refine List.forall₂_same.2 fun p _ => ?_
    exact onlyIf _ (alike.matchLabel _ _) keep
  case h_15 =>
    refine onlyIf _ ((alike.matchOwner _ _).both ?_ forget) forget
    exact (alike.matchFieldName _ _ _ _ _).both (alike.matchType _ _) keep
  case h_16 =>
    refine onlyIf _ ((alike.matchOwner _ _).both ?_ forget) forget
    exact (alike.matchMethodName _ _ _ _ _).both (alike.matchMethodType _ _) keep
  case h_17 => exact (onlyIf _ (alike.matchClassOperand _ _) keep).before forget
  case h_18 =>
    refine (onlyIf _ ?_ keep).before forget
    split
    · exact .pure true
    · exact onlyIf _ (alike.matchClassOperand _ _) keep
  case h_19 => split <;> exact (Parallel.pure _).mono forget
  case h_20 =>
    refine (onlyIf _ ?_ keep).before forget
    split
    · exact .pure true
    · exact alike.matchType _ _
  all_goals exact (Parallel.pure _).mono forget

theorem matchRegion (start stop handler : LabelRef) (catchType : Option TypeDesc)
    (region : Region) :
    Parallel (Scope.Renumbered ρ cx.classes) (Scope.Renumbered ρ cx.classes)
      (cx.matchRegion start stop handler catchType region)
        (cx'.matchRegion start stop handler catchType region) := by
  have keep : ∀ s t, Scope.Renumbered ρ cx.classes s t → Scope.Renumbered ρ cx.classes s t :=
    fun _ _ renumbered => renumbered
  have caught : Parallel (Scope.Renumbered ρ cx.classes) (Scope.Renumbered ρ cx.classes)
      (cx.matchCatchType catchType region.catchType)
        (cx'.matchCatchType catchType region.catchType) := by
    unfold BodyContext.matchCatchType
    split
    · exact .pure true
    · exact alike.classes.typesAgree _ _
    · exact .pure false
  refine caught.both ((alike.matchLabel _ _).both ?_ keep) keep
  exact (alike.matchLabel _ _).both (alike.matchLabel _ _) keep

theorem findRegion (pattern : Pattern) (regions : List Region) :
    Parallel (Scope.Renumbered ρ cx.classes) (Scope.Renumbered ρ cx.classes)
      (cx.findRegion pattern regions)
      (cx'.findRegion pattern regions) := by
  unfold BodyContext.findRegion
  split
  · rename_i start stop handler catchType
    generalize 0 = place
    induction regions generalizing place with
    | nil => exact .pure none
    | cons region regions ih =>
      intro s t renumbered
      obtain ⟨accepted, left⟩ :=
        alike.matchRegion start stop handler catchType region s t renumbered
      rw [run_firstRegion_cons, run_firstRegion_cons, accepted]
      split
      · exact ⟨rfl, left⟩
      · exact ih (place + 1) s t renumbered
  · exact .pure none

end BodyContext.Renumbered

/-! ### Looking for the lines of a block

The walks make the same calls. -/

/-- What has been found differs in numbers only. -/
structure Found.Renumbered (ρ : Renumbering) (set : ClassSet) (found found' : Found) : Prop where
  scope : Scope.Renumbered ρ set found.scope found'.scope
  positions : found'.positions = found.positions

/-- The outcomes differ in numbers only. -/
inductive WalkOutcome.Renumbered (ρ : Renumbering) (set : ClassSet) :
    WalkOutcome → WalkOutcome → Prop
  | matched {found found' : Found} : Found.Renumbered ρ set found found' →
      WalkOutcome.Renumbered ρ set (.matched found) (.matched found')
  | stuck (fault : WalkFault) : WalkOutcome.Renumbered ρ set (.stuck fault) (.stuck fault)
  | failed (fault : WalkFault) : WalkOutcome.Renumbered ρ set (.failed fault) (.failed fault)

/-- The scopes in which instructions are looked for in a body. -/
inductive WalkScope (cx : BodyContext) (lines : List InsnLine) (code : Code)
    (start : Scope) : Scope → Prop where
  | intro {scope places point} :
      findRegions cx code.regions (SoughtLine.forRegions lines) start .empty = .ok (scope, places) →
      (WalkPoint.start lines code scope).Reaches cx point →
        WalkScope cx lines code start point.found.scope

theorem WalkScope.body {cx : BodyContext} {lines : List InsnLine} {code : Code}
    {start scope : Scope} (arises : WalkScope cx lines code start scope) :
    BodyScope cx lines code start scope := by
  cases arises with
  | intro found reaches => exact .call found reaches

/-- No name is tied in the scopes in which the calls of a walk look names up. -/
def WalkPoint.Untied (cx : BodyContext) (p : WalkPoint) : Prop :=
  ∀ q, p.Reaches cx q → q.found.scope.Untied cx.classes

theorem WalkPoint.Untied.calls {cx : BodyContext} {p q : WalkPoint} (untied : p.Untied cx)
    (calls : p.Calls cx q) :
    q.Untied cx := fun r reaches => untied r (.head calls reaches)

namespace BodyContext.Renumbered

variable {ρ : Renumbering} {cx cx' : BodyContext} (alike : BodyContext.Renumbered ρ cx cx')
include alike

theorem matchAt (l : SoughtLine) (place : Nat) (insn : Insn) {found found' : Found}
    (related : Found.Renumbered ρ cx.classes found found')
    (untied : found.scope.Untied cx.classes) :
    Option.Rel (Found.Renumbered ρ cx.classes) (l.matchAt cx place insn found)
      (l.matchAt cx' place insn found') := by
  obtain ⟨accepted, left⟩ := alike.matchInsn l.line.pattern insn _ _ ⟨related.scope, untied⟩
  rw [SoughtLine.matchAt_eq, SoughtLine.matchAt_eq, accepted, related.positions]
  split
  · exact .some ⟨left, rfl⟩
  · exact .none

/-- What the walk finds from a place on, once the line there has been dealt with. -/
def Follows (ρ : Renumbering) (cx cx' : BodyContext) (afterAny : Bool)
    (ls : List SoughtLine) : Prop :=
  ∀ place insns found found', Found.Renumbered ρ cx.classes found found' →
    WalkPoint.Untied cx ⟨.follow afterAny ls, place, insns, found⟩ →
      WalkOutcome.Renumbered ρ cx.classes (followLines cx afterAny ls place insns found)
        (followLines cx' afterAny ls place insns found')

theorem step {l : SoughtLine} {ls : List SoughtLine}
    (rest : Follows ρ cx cx' false ls) (place : Nat) (insns : List Insn) {found found' : Found}
    (related : Found.Renumbered ρ cx.classes found found')
    (untied : WalkPoint.Untied cx ⟨.step l ls, place, insns, found⟩) :
    WalkOutcome.Renumbered ρ cx.classes (l.step cx (followLines cx false ls) place insns found)
      (l.step cx' (followLines cx' false ls) place insns found') := by
  induction insns generalizing place with
  | nil => exact .stuck _
  | cons insn insns ih =>
    rw [SoughtLine.step, SoughtLine.step]
    by_cases passes : l.passesOver insn = true
    · rw [if_pos passes, if_pos passes]
      exact ih (place + 1) (untied.calls (.passStep passes))
    rw [if_neg passes, if_neg passes]
    have found := alike.matchAt l place insn related (untied _ .refl)
    cases isFound : l.matchAt cx place insn _ <;> cases isFound' : l.matchAt cx' place insn _ <;>
      rw [isFound, isFound'] at found <;> cases found
    · exact .stuck _
    · exact rest _ _ _ _ ‹_› (untied.calls (.matchStep (Bool.eq_false_iff.2 passes) isFound))

theorem seek {l : SoughtLine} {ls : List SoughtLine} (rest : Follows ρ cx cx' false ls)
    (again : Bool) (place : Nat) (insns : List Insn) {found found' : Found}
    (related : Found.Renumbered ρ cx.classes found found')
    (untied : WalkPoint.Untied cx ⟨.seek l ls again, place, insns, found⟩) :
    WalkOutcome.Renumbered ρ cx.classes
      (l.seek cx (followLines cx false ls) again place insns found)
      (l.seek cx' (followLines cx' false ls) again place insns found') := by
  induction insns generalizing place again with
  | nil =>
    rw [SoughtLine.seek, SoughtLine.seek]
    split
    · exact .failed _
    · exact .stuck _
  | cons insn insns ih =>
    rw [SoughtLine.seek, SoughtLine.seek]
    by_cases passes : l.passesOver insn = true
    · rw [if_pos passes, if_pos passes]
      exact ih again (place + 1) (untied.calls (.passSeek passes))
    rw [if_neg passes, if_neg passes]
    have sought := Bool.eq_false_iff.2 passes
    have found := alike.matchAt l place insn related (untied _ .refl)
    cases isFound : l.matchAt cx place insn _ <;> cases isFound' : l.matchAt cx' place insn _ <;>
      rw [isFound, isFound'] at found <;> cases found
    · exact ih again (place + 1) (untied.calls (.skip sought isFound))
    · have outcome := rest (place + 1) insns _ _ ‹_› (untied.calls (.matchSeek sought isFound))
      cases followed : followLines cx false ls (place + 1) insns _ <;>
        cases followed' : followLines cx' false ls (place + 1) insns _ <;>
        rw [followed, followed'] at outcome <;> cases outcome
      · dsimp only
        rw [followed, followed']
        exact .matched ‹_›
      · dsimp only
        rw [followed, followed']
        exact ih true (place + 1) (untied.calls (.rollback sought isFound followed))
      · dsimp only
        rw [followed, followed']
        exact .failed _

theorem followLines (afterAny : Bool) (ls : List SoughtLine) : Follows ρ cx cx' afterAny ls := by
  induction ls generalizing afterAny with
  | nil =>
    intro place insns found found' related untied
    rw [JvmPatch.followLines, JvmPatch.followLines]
    split
    · exact .matched related
    · exact .stuck _
  | cons l ls ih =>
    intro place insns found found' related untied
    rw [JvmPatch.followLines, JvmPatch.followLines]
    by_cases any : l.line.pattern = .any
    · rw [if_pos any, if_pos any]
      exact ih true _ _ _ _ related (untied.calls (.any any))
    rw [if_neg any, if_neg any]
    cases afterAny with
    | true => exact alike.seek (ih false) false place insns related (untied.calls (.seek any))
    | false => exact alike.step (ih false) place insns related (untied.calls (.step any))

theorem findRegions (regions : List Region) (ls : List SoughtLine) (found : Table Nat Nat)
    {scope scope' : Scope} (renumbered : Scope.Renumbered ρ cx.classes scope scope') :
    SameEnd (fun x y => Scope.Renumbered ρ cx.classes x.1 y.1 ∧
      y.2 = x.2) (findRegions cx regions ls scope found)
      (findRegions cx' regions ls scope' found) := by
  induction ls generalizing scope scope' found with
  | nil => exact .ok ⟨renumbered, rfl⟩
  | cons l ls ih =>
    obtain ⟨same, left⟩ := alike.findRegion l.line.pattern regions scope scope' renumbered
    rw [JvmPatch.findRegions, JvmPatch.findRegions]
    revert same left
    rcases (cx.findRegion l.line.pattern regions).run scope with ⟨region, next⟩
    rcases (cx'.findRegion l.line.pattern regions).run scope' with ⟨region', next'⟩
    intro same left
    obtain rfl : region' = region := same
    cases region' with
    | none => exact .error _
    | some region => exact ih _ left

/-- The lines of a block are found at the same places in both bodies. -/
theorem walk (lines : List InsnLine) (code : Code) {scope scope' : Scope}
    (renumbered : Scope.Renumbered ρ cx.classes scope scope')
    (untied : ∀ later, WalkScope cx lines code scope later → later.Untied cx.classes) :
    SameEnd (fun x y => Scope.Renumbered ρ cx.classes x.1 y.1 ∧
      y.2 = x.2) (walk cx lines code scope)
      (walk cx' lines code scope') := by
  have regions := alike.findRegions code.regions (SoughtLine.forRegions lines) .empty renumbered
  unfold SoughtLine.forRegions at regions
  rw [JvmPatch.walk, JvmPatch.walk]
  simp only [List.partition_eq_filter_filter]
  cases ran : JvmPatch.findRegions cx code.regions
    ((SoughtLine.ofBlock lines).filter fun l => l.line.pattern.isTryCatch) scope .empty <;>
    cases ran' : JvmPatch.findRegions cx' code.regions
      ((SoughtLine.ofBlock lines).filter fun l => l.line.pattern.isTryCatch) scope' .empty <;>
    rw [ran, ran'] at regions <;> cases regions
  · exact .error _
  rename_i found found' related
  obtain ⟨next, places⟩ := found
  obtain ⟨next', places'⟩ := found'
  obtain ⟨left, rfl⟩ := related
  have outcome := alike.followLines false (SoughtLine.forInsns lines) 0 code.insns ⟨next,
    .empty⟩ ⟨next', .empty⟩
    ⟨left, rfl⟩ fun q reaches => untied _ (.intro ran reaches)
  simp only [ok_bind]
  rw [show (SoughtLine.ofBlock lines).filter (not ∘ fun l => l.line.pattern.isTryCatch) =
    SoughtLine.forInsns lines from rfl]
  revert outcome
  cases JvmPatch.followLines cx false _ 0 code.insns _ <;>
    cases JvmPatch.followLines cx' false _ 0 code.insns _ <;>
    intro outcome <;> cases outcome
  · rename_i related
    exact .ok ⟨related.scope, by rw [related.positions]⟩
  · exact .error _
  · exact .error _

end BodyContext.Renumbered

end JvmPatch
