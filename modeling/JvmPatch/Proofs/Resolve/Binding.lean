import JvmPatch.Proofs.Resolve.Verified
import JvmPatch.Proofs.Scope.Binding

/-! What the trial of an assignment binds. The names of blocks and lines are bound to what is
assigned to them; the lines of a method block bind labels of the body in which they are looked for,
and members that the instructions there refer to. -/

set_option autoImplicit false

namespace JvmPatch

/-- The labels that an instruction places or branches to. -/
def Insn.labels (insn : Insn) : List Label := insn.placed?.toList ++ insn.branchTargets

def Code.labels (code : Code) : List Label := code.placedLabels ++ code.usedLabels

theorem Code.mem_labels_of_insn {code : Code} {insn : Insn} {l : Label} (member : insn ∈ code.insns)
    (inside : l ∈ insn.labels) : l ∈ code.labels := by
  rcases List.mem_append.1 inside with places | branches
  · exact List.mem_append_left _ (List.mem_filterMap.2 ⟨insn, member, Option.mem_toList.1 places⟩)
  · exact List.mem_append_right _
      (List.mem_append_left _ (List.mem_flatMap.2 ⟨insn, member, branches⟩))

theorem Code.mem_labels_of_region {code : Code} {r : Region} {l : Label} (member : r ∈ code.regions)
    (inside : l ∈ r.labels) : l ∈ code.labels :=
  List.mem_append_right _ (List.mem_append_right _ (List.mem_flatMap.2 ⟨r, member, inside⟩))

/-- A pattern names a field by a key, and an instruction refers to the field through a class. -/
inductive Pattern.NamesField (set : ClassSet) : Pattern → Insn → ClassId → MemberKey →
    FieldId → Prop where
  | intro {op op' owner name t d ownerName fieldName desc cls id} : name.isBindable = true →
      set.meantField? ownerName fieldName desc = some (cls, id) →
      NamesField set (.field op owner name t d) (.field op' ownerName fieldName desc) cls
        (.of name d) id

/-- A pattern names a method by a key, and an instruction refers to the method through a class. -/
inductive Pattern.NamesMethod (set : ClassSet) : Pattern → Insn → ClassId → MemberKey →
    MethodId → Prop where
  | intro {op op' owner name t d ownerName methodName desc isInterface cls id} :
      name.isBindable = true → set.meantMethod? ownerName methodName desc = some (cls, id) →
      NamesMethod set (.invoke op owner name t d)
        (.invoke op' ownerName methodName desc isInterface) cls
        (.of name d) id

/-- All that a pattern can bind in an instruction is permitted. -/
structure BodyContext.Allows (cx : BodyContext) (may : Scope.Permit) (pattern : Pattern)
    (insn : Insn) :
    Prop where
  labels : ∀ l ∈ insn.labels, may.label cx.body l
  field : ∀ cls key id, pattern.NamesField cx.classes insn cls key id →
    may.field cx.classes cls key id
  method : ∀ cls key id, pattern.NamesMethod cx.classes insn cls key id →
    may.method cx.classes cls key id

namespace BodyContext

open ScopeM

variable {may : Scope.Permit} (cx : BodyContext)

theorem onlyIf_gains (condition : Bool) {test : ScopeM Bool} (gains : Gains may test) :
    Gains may (onlyIf condition test) := by
  cases condition with
  | true => exact gains
  | false => exact .pure false

theorem matchLabel_gains (pattern : LabelRef) {l : Label} (permitted : may.label cx.body l) :
    Gains may (cx.matchLabel pattern l) := by
  cases pattern with
  | any => exact .pure true
  | weak name => exact .update fun _ _ bound => .label permitted bound

theorem matchType_gains (pattern : TypeDesc) (found : Except DescriptorError TypeDesc) :
    Gains may (cx.matchType pattern found) := by
  cases found with
  | ok type => exact cx.classes.typesAgree_gains _ _
  | error e => exact .pure false

theorem matchClassOperand_gains (pattern : Operand TypeDesc) (operand : String) :
    Gains may (cx.matchClassOperand pattern operand) := by
  cases pattern with
  | any => exact .pure true
  | is type => exact cx.matchType_gains _ _

theorem matchOwner_gains (pattern : Ident) (owner : String) :
    Gains may (cx.matchOwner pattern owner) :=
  (cx.classes.checkClassName_gains _ _).bind fun _ => .pure _

theorem nameTest_gains {α : Type} [DecidableEq α] (meant : Option (ClassId × α))
    (standsFor : ClassId → Scope → Option α) (bind : ClassId → α → Scope → Option Scope)
    (binds : ∀ cls x, meant = some (cls, x) → ∀ scope next, bind cls x scope = some next →
      Scope.Binds may scope next) :
    Gains may (nameTest meant standsFor bind) := by
  intro scope
  cases meant with
  | none => exact .refl
  | some e =>
    obtain ⟨cls, x⟩ := e
    rw [run_nameTest]
    cases standsFor cls scope with
    | some bound => exact .refl
    | none =>
      cases bound : bind cls x scope with
      | none => exact .refl
      | some next => exact .single (binds cls x rfl scope next bound)

theorem matchFieldName_gains (pattern : Ident) (patternDesc owner name desc : String)
    (permitted : pattern.isBindable = true → ∀ cls id,
      cx.classes.meantField? owner name desc = some (cls, id) →
      may.field cx.classes cls (.of pattern patternDesc) id) :
    Gains may (cx.matchFieldName pattern patternDesc owner name desc) := by
  rw [matchFieldName_eq]
  split
  · rename_i bindable
    exact nameTest_gains _ _ _ fun cls id meant _ _ bound =>
      .field (permitted bindable cls id meant) bound
  · exact .pure _

theorem matchMethodName_gains (pattern : Ident) (patternDesc owner name desc : String)
    (permitted : pattern.isBindable = true → ∀ cls id,
      cx.classes.meantMethod? owner name desc = some (cls, id) →
      may.method cx.classes cls (.of pattern patternDesc) id) :
    Gains may (cx.matchMethodName pattern patternDesc owner name desc) := by
  rw [matchMethodName_eq]
  split
  · rename_i bindable
    exact nameTest_gains _ _ _ fun cls id meant _ _ bound =>
      .method (permitted bindable cls id meant) bound
  · exact .pure _

theorem matchMethodType_gains (pattern : MethodDesc) (desc : String) :
    Gains may (cx.matchMethodType pattern desc) := by
  unfold matchMethodType
  split
  · exact cx.classes.methodTypesAgree_gains _ _
  · exact .pure _

/-- Matching an instruction binds what the pattern can bind there, also if the match fails. -/
theorem matchInsn_gains {pattern : Pattern} {insn : Insn} (allows : cx.Allows may pattern insn) :
    Gains may (cx.matchInsn pattern insn) := by
  obtain ⟨labels, field, method⟩ := allows
  unfold matchInsn
  split
  case h_1 => exact cx.matchLabel_gains _ (labels _ (by simp [Insn.labels, Insn.placed?]))
  case h_9 => exact cx.matchClassOperand_gains _ _
  case h_12 =>
    exact onlyIf_gains
      _ (cx.matchLabel_gains _ (labels _ (by simp [Insn.labels, Insn.branchTargets])))
  case h_13 =>
    refine onlyIf_gains _ ((cx.matchLabel_gains _ (labels _ ?_)).both (.all fun p member => ?_))
    · simp [Insn.labels, Insn.branchTargets]
    · refine cx.matchLabel_gains _ (labels _ (List.mem_append_right _ (.tail _ ?_)))
      exact (List.of_mem_zip member).2
  case h_14 =>
    refine onlyIf_gains _ ((cx.matchLabel_gains _ (labels _ ?_)).both (.all fun p member => ?_))
    · simp [Insn.labels, Insn.branchTargets]
    · refine onlyIf_gains
        _ (cx.matchLabel_gains _ (labels _ (List.mem_append_right _ (.tail _ ?_))))
      exact List.mem_map_of_mem (List.of_mem_zip member).2
  case h_15 =>
    exact onlyIf_gains _ ((cx.matchOwner_gains _ _).both
      ((cx.matchFieldName_gains _ _ _ _ _ fun bindable cls id meant =>
        field cls _ id (.intro bindable meant)).both (cx.matchType_gains _ _)))
  case h_16 =>
    exact onlyIf_gains _ ((cx.matchOwner_gains _ _).both
      ((cx.matchMethodName_gains _ _ _ _ _ fun bindable cls id meant =>
        method cls _ id (.intro bindable meant)).both (cx.matchMethodType_gains _ _)))
  case h_17 => exact onlyIf_gains _ (cx.matchClassOperand_gains _ _)
  case h_18 =>
    refine onlyIf_gains _ ?_
    split
    · exact .pure _
    · exact onlyIf_gains _ (cx.matchClassOperand_gains _ _)
  case h_19 => split <;> exact .pure _
  case h_20 =>
    refine onlyIf_gains _ ?_
    split
    · exact .pure _
    · exact cx.matchType_gains _ _
  all_goals exact .pure _

/-- Matching a region binds labels of the region, also if the match fails. -/
theorem matchRegion_gains (start stop handler : LabelRef) (catchType : Option TypeDesc)
    {region : Region} (permitted : ∀ l ∈ region.labels, may.label cx.body l) :
    Gains may (cx.matchRegion start stop handler catchType region) := by
  have catches : Gains may (cx.matchCatchType catchType region.catchType) := by
    unfold matchCatchType
    split
    · exact .pure _
    · exact cx.classes.typesAgree_gains _ _
    · exact .pure _
  refine catches.both ((cx.matchLabel_gains _ (permitted _ ?_)).both
    ((cx.matchLabel_gains _ (permitted _ ?_)).both (cx.matchLabel_gains _ (permitted _ ?_)))) <;>
    simp [Region.labels]

theorem firstRegion_gains {test : Region → ScopeM Bool} {regions : List Region}
    (each : ∀ region ∈ regions, Gains may (test region)) (place : Nat) :
    Gains may (firstRegion test place regions) := by
  induction regions generalizing place with
  | nil => exact .pure _
  | cons region regions ih =>
    intro scope
    rw [run_firstRegion_cons]
    split
    · exact each region List.mem_cons_self scope
    · exact ih (fun r member => each r (.tail _ member)) (place + 1) scope

theorem findRegion_gains (pattern : Pattern) {regions : List Region}
    (permitted : ∀ region ∈ regions, ∀ l ∈ region.labels, may.label cx.body l) :
    Gains may (cx.findRegion pattern regions) := by
  unfold findRegion
  split
  · exact firstRegion_gains (fun r member => cx.matchRegion_gains _ _ _ _ (permitted r member)) _
  · exact .pure _

end BodyContext

/-! ### Looking for the lines of a block -/

/-- A call that is made while lines are followed through a body. -/
inductive WalkCall
  | follow (afterAny : Bool) (ls : List SoughtLine)
  | step (l : SoughtLine) (ls : List SoughtLine)
  | seek (l : SoughtLine) (ls : List SoughtLine) (again : Bool)

/-- A call with the instructions from some place on and with what has been found before. -/
structure WalkPoint where
  call : WalkCall
  place : Nat
  insns : List Insn
  found : Found

namespace WalkPoint

def outcome (cx : BodyContext) : WalkPoint → WalkOutcome
  | ⟨.follow afterAny ls, place, insns, found⟩ => followLines cx afterAny ls place insns found
  | ⟨.step l ls, place, insns, found⟩ => l.step cx (followLines cx false ls) place insns found
  | ⟨.seek l ls again, place, insns, found⟩ =>
    l.seek cx (followLines cx false ls) again place insns found

/-- The calls that a call makes. Where a line has matched and the lines after it get stuck, the call
goes on with the bindings from before the match. -/
inductive Calls (cx : BodyContext) : WalkPoint → WalkPoint → Prop where
  | any {afterAny l ls place insns found} : l.line.pattern = .any →
      Calls cx ⟨.follow afterAny (l :: ls), place, insns, found⟩ ⟨.follow true ls,
        place, insns, found⟩
  | seek {l ls place insns found} : l.line.pattern ≠ .any →
      Calls cx ⟨.follow true (l :: ls), place, insns, found⟩ ⟨.seek l ls false, place, insns, found⟩
  | step {l ls place insns found} : l.line.pattern ≠ .any →
      Calls cx ⟨.follow false (l :: ls), place, insns, found⟩ ⟨.step l ls, place, insns, found⟩
  | passStep {l ls place insn insns found} : l.passesOver insn = true →
      Calls cx ⟨.step l ls, place, insn :: insns, found⟩ ⟨.step l ls, place + 1, insns, found⟩
  | matchStep {l ls place insn insns found next} : l.passesOver insn = false →
      l.matchAt cx place insn found = some next →
      Calls cx ⟨.step l ls, place, insn :: insns, found⟩ ⟨.follow false ls, place + 1, insns, next⟩
  | passSeek {l ls again place insn insns found} : l.passesOver insn = true →
      Calls cx ⟨.seek l ls again, place, insn :: insns, found⟩ ⟨.seek l ls again,
        place + 1, insns, found⟩
  | skip {l ls again place insn insns found} : l.passesOver insn = false →
      l.matchAt cx place insn found = none →
      Calls cx ⟨.seek l ls again, place, insn :: insns, found⟩ ⟨.seek l ls again,
        place + 1, insns, found⟩
  | matchSeek {l ls again place insn insns found next} : l.passesOver insn = false →
      l.matchAt cx place insn found = some next →
      Calls cx ⟨.seek l ls again, place, insn :: insns, found⟩ ⟨.follow false ls,
        place + 1, insns, next⟩
  | rollback {l ls again place insn insns found next fault} : l.passesOver insn = false →
      l.matchAt cx place insn found = some next →
      followLines cx false ls (place + 1) insns next = .stuck fault →
      Calls cx ⟨.seek l ls again, place, insn :: insns, found⟩ ⟨.seek l ls true,
        place + 1, insns, found⟩

/-- The calls that a call leads to. -/
abbrev Reaches (cx : BodyContext) : WalkPoint → WalkPoint → Prop := Relation.ReflTransGen (Calls cx)

variable {cx : BodyContext} {may : Scope.Permit}

private theorem reached_of_calls {p q : WalkPoint} {final : Found} (calls : p.Calls cx q)
    (reached : ∃ r, q.Reaches cx r ∧ r.found = final) : ∃ r, p.Reaches cx r ∧ r.found = final := by
  obtain ⟨r, reaches, isFinal⟩ := reached
  exact ⟨r, .head calls reaches, isFinal⟩

section Line

variable {l : SoughtLine} {ls : List SoughtLine} {final : Found}
  (rest : ∀ {place insns found}, followLines cx false ls place insns found = .matched final →
    ∃ q, Reaches cx ⟨.follow false ls, place, insns, found⟩ q ∧ q.found = final)

include rest

private theorem reached_of_step {place : Nat} {insns : List Insn} {found : Found}
    (matched : l.step cx (followLines cx false ls) place insns found = .matched final) :
    ∃ q, Reaches cx ⟨.step l ls, place, insns, found⟩ q ∧ q.found = final := by
  induction insns generalizing place with
  | nil => cases matched
  | cons insn insns ih =>
    rw [SoughtLine.step] at matched
    split at matched
    · exact reached_of_calls (.passStep ‹_›) (ih matched)
    rename_i notPassed
    cases fits : l.matchAt cx place insn found with
    | none => simp [fits] at matched
    | some next =>
      rw [fits] at matched
      exact reached_of_calls (.matchStep (eq_false_of_ne_true notPassed) fits) (rest matched)

private theorem reached_of_seek {again : Bool} {place : Nat} {insns : List Insn} {found : Found}
    (matched : l.seek cx (followLines cx false ls) again place insns found = .matched final) :
    ∃ q, Reaches cx ⟨.seek l ls again, place, insns, found⟩ q ∧ q.found = final := by
  induction insns generalizing place again with
  | nil =>
    rw [SoughtLine.seek] at matched
    split at matched <;> cases matched
  | cons insn insns ih =>
    rw [SoughtLine.seek] at matched
    split at matched
    · exact reached_of_calls (.passSeek ‹_›) (ih matched)
    rename_i notPassed
    have stops := eq_false_of_ne_true notPassed
    cases fits : l.matchAt cx place insn found with
    | none =>
      rw [fits] at matched
      exact reached_of_calls (.skip stops fits) (ih matched)
    | some next =>
      simp only [fits] at matched
      cases outcome : followLines cx false ls (place + 1) insns next with
      | stuck fault =>
        rw [outcome] at matched
        exact reached_of_calls (.rollback stops fits outcome) (ih matched)
      | failed fault =>
        rw [outcome] at matched
        cases matched
      | matched last =>
        rw [outcome] at matched
        exact reached_of_calls (.matchSeek stops fits) (rest (outcome.trans matched))

end Line

/-- What is found at the end has been found by a call. -/
theorem reached_of_matched {ls : List SoughtLine} {afterAny : Bool} {place : Nat}
    {insns : List Insn} {found final : Found}
    (matched : followLines cx afterAny ls place insns found = .matched final) :
    ∃ q, Reaches cx ⟨.follow afterAny ls, place, insns, found⟩ q ∧ q.found = final := by
  induction ls generalizing afterAny place insns found with
  | nil =>
    rw [followLines] at matched
    split at matched
    · exact ⟨_, .refl, WalkOutcome.matched.inj matched⟩
    · cases matched
  | cons l ls ih =>
    rw [followLines] at matched
    split at matched
    · exact reached_of_calls (.any ‹_›) (ih matched)
    rename_i notAny
    split at matched
    · rename_i isAfterAny
      obtain rfl : afterAny = true := isAfterAny
      exact reached_of_calls (.seek notAny) (reached_of_seek ih matched)
    · rename_i notAfterAny
      obtain rfl : afterAny = false := eq_false_of_ne_true notAfterAny
      exact reached_of_calls (.step notAny) (reached_of_step ih matched)

/-- The lines that a call still has to find. -/
def lines (p : WalkPoint) : List SoughtLine :=
  match p.call with
  | .follow _ ls => ls
  | .step l ls | .seek l ls _ => l :: ls

/-- All that the lines of a call can bind in its instructions is permitted. -/
def Allowed (cx : BodyContext) (may : Scope.Permit) (p : WalkPoint) : Prop :=
  ∀ l ∈ p.lines, ∀ insn ∈ p.insns, cx.Allows may l.line.pattern insn

theorem gains_of_matchAt {l : SoughtLine} {place : Nat} {insn : Insn} {found next : Found}
    (allows : cx.Allows may l.line.pattern insn)
    (fits : l.matchAt cx place insn found = some next) :
    found.scope.Gains may next.scope := by
  have gains := cx.matchInsn_gains allows found.scope
  rwa [(SoughtLine.matchAt_eq_some fits).1] at gains

theorem Allowed.calls {p q : WalkPoint} (allowed : p.Allowed cx may) (calls : p.Calls cx q) :
    q.Allowed cx may := by
  cases calls with
  | any | matchStep | matchSeek =>
    exact fun l isLine insn isInsn => allowed l (.tail _ isLine) insn (by simp [isInsn])
  | seek | step => exact allowed
  | passStep | passSeek | skip | rollback =>
    exact fun l isLine insn isInsn => allowed l isLine insn (.tail _ isInsn)

theorem Calls.gains {p q : WalkPoint} (calls : p.Calls cx q) (allowed : p.Allowed cx may) :
    p.found.scope.Gains may q.found.scope := by
  cases calls with
  | any | seek | step | passStep | passSeek | skip | rollback => exact .refl
  | matchStep _ fits | matchSeek _ fits =>
    exact gains_of_matchAt (allowed _ List.mem_cons_self _ List.mem_cons_self) fits

/-- Every call has the bindings of the first one, and more as permitted. -/
theorem Reaches.gains {p q : WalkPoint} (reaches : p.Reaches cx q) (allowed : p.Allowed cx may) :
    p.found.scope.Gains may q.found.scope ∧ q.Allowed cx may := by
  induction reaches with
  | refl => exact ⟨.refl, allowed⟩
  | tail _ calls ih => exact ⟨ih.1.trans (calls.gains ih.2), ih.2.calls calls⟩

end WalkPoint

section Walk

variable {cx : BodyContext} {may : Scope.Permit}

theorem findRegions_gains {regions : List Region} {ls : List SoughtLine}
    (permitted : ∀ region ∈ regions, ∀ l ∈ region.labels, may.label cx.body l)
    {scope final : Scope} {found places : Table Nat Nat}
    (h : findRegions cx regions ls scope found = .ok (final, places)) : scope.Gains may final := by
  induction ls generalizing scope found with
  | nil =>
    obtain ⟨rfl, -⟩ := Prod.mk.inj (Except.ok.inj h)
    exact .refl
  | cons l ls ih =>
    rw [findRegions] at h
    have one := cx.findRegion_gains l.line.pattern permitted scope
    cases first : (cx.findRegion l.line.pattern regions).run scope with
    | mk region next =>
      rw [first] at h one
      cases region with
      | none => cases h
      | some region => exact one.trans (ih h)

/-- All that the lines of a block can bind in a body is permitted. -/
structure BodyContext.AllowsBody (cx : BodyContext) (may : Scope.Permit) (lines : List InsnLine)
    (code : Code) :
    Prop where
  regions : ∀ region ∈ code.regions, ∀ l ∈ region.labels, may.label cx.body l
  insns : ∀ l ∈ lines, l.mode ≠ .add → ∀ insn ∈ code.insns, cx.Allows may l.pattern insn

theorem BodyContext.allowsBody_everything (cx : BodyContext) (lines : List InsnLine) (code : Code) :
    cx.AllowsBody .everything lines code :=
  ⟨fun _ _ _ _ => trivial, fun _ _ _ _ _ =>
    ⟨fun _ _ => trivial, fun _ _ _ _ => trivial, fun _ _ _ _ => trivial⟩⟩

def SoughtLine.forRegions (lines : List InsnLine) : List SoughtLine :=
  (ofBlock lines).filter fun l => l.line.pattern.isTryCatch

def SoughtLine.forInsns (lines : List InsnLine) : List SoughtLine :=
  (ofBlock lines).filter fun l => !l.line.pattern.isTryCatch

/-- The call that begins to look for the lines for instructions. -/
def WalkPoint.start (lines : List InsnLine) (code : Code) (scope : Scope) : WalkPoint :=
  ⟨.follow false (SoughtLine.forInsns lines), 0, code.insns, ⟨scope, .empty⟩⟩

theorem WalkPoint.start_allowed {lines : List InsnLine} {code : Code}
    (allows : cx.AllowsBody may lines code) (scope : Scope) :
    (WalkPoint.start lines code scope).Allowed cx may := fun l isLine insn isInsn =>
  have sought := (List.mem_filter.1 isLine).1
  allows.insns l.line (SoughtLine.line_mem_of_ofBlock sought)
    (SoughtLine.mode_of_ofBlock sought) insn isInsn

/-- Looking for the lines of a block ends with what has been found by one of the calls. -/
theorem walk_reached {lines : List InsnLine} {code : Code} {scope final : Scope}
    {places : MethodMatch} (h : walk cx lines code scope = .ok (final, places)) :
    ∃ next regions q, findRegions cx code.regions (SoughtLine.forRegions lines) scope .empty =
      .ok (next, regions) ∧ (WalkPoint.start lines code next).Reaches cx q ∧
        q.found.scope = final := by
  rw [walk] at h
  simp only [List.partition_eq_filter_filter] at h
  obtain ⟨⟨next, regions⟩, first, h⟩ := bind_eq_ok h
  dsimp only at h
  split at h
  · rename_i found outcome
    obtain ⟨rfl, -⟩ := Prod.mk.inj (Except.ok.inj h)
    obtain ⟨q, reaches, isFinal⟩ := WalkPoint.reached_of_matched outcome
    exact ⟨next, regions, q, first, reaches, by rw [isFinal]⟩
  · cases h
  · cases h

/-- Finding the lines of a block binds what they can bind in the body. -/
theorem walk_gains {lines : List InsnLine} {code : Code} {scope final : Scope}
    {places : MethodMatch} (allows : cx.AllowsBody may lines code)
    (h : walk cx lines code scope = .ok (final, places)) :
    scope.Gains may final := by
  obtain ⟨next, regions, q, first, reaches, rfl⟩ := walk_reached h
  exact (findRegions_gains allows.regions first).trans
    (reaches.gains (WalkPoint.start_allowed allows next)).1

end Walk

/-! ### Checking an assignment -/

/-- The scope of a trial has been reached from an earlier one by steps of a trial. -/
abbrev StepsFrom {ε α : Type} (may : Scope.Permit) (initial : Scope)
    (m : EStateM ε Scope α) : Prop :=
  Preserves (initial.Steps may) m

namespace StepsFrom

variable {ε α : Type} {may : Scope.Permit} {initial : Scope}

theorem require (condition : Bool) (reason : Reason) :
    StepsFrom may initial (CheckM.require condition reason) := by
  unfold CheckM.require
  split
  · exact .pure _ _
  · exact .throw _ _

theorem requireM {test : ScopeM Bool} (gains : ScopeM.Gains may test) (reason : Reason) :
    StepsFrom may initial (CheckM.requireM test reason) :=
  .ofGet fun scope reached =>
    preserves_iff.1 (require (test.run scope).1 reason) _ (reached.trans (gains scope).steps)

theorem orReason {ε' : Type} (reason : ε' → Reason) (x : Except ε' α) :
    StepsFrom may initial (CheckM.orReason reason x) := by
  cases x with
  | ok x => exact .pure _ x
  | error e => exact .throw _ _

theorem pass {check : CheckM Unit} (checks : StepsFrom may initial check) (progress : Nat)
    (element : String) : StepsFrom may initial (VerifyM.pass progress element check) := by
  refine .ofGet fun scope reached => ?_
  have left := preserves_iff.1 checks scope reached
  cases ran : check.run scope with
  | ok x later =>
    rw [leftBy_ok ran] at left
    exact left
  | error e later =>
    rw [leftBy_error ran] at left
    exact left

end StepsFrom

namespace ClassSet

variable {may : Scope.Permit} {initial : Scope} (set : ClassSet)

theorem checkClass_steps (block : ClassBlock) (id : ClassId) :
    StepsFrom may initial (set.checkClass block id) := by
  refine (StepsFrom.require _ _).bind fun _ => .bind ?_ fun _ => .bind (.forM fun line _ => ?_)
    fun _ => .forM fun line _ => ?_
  · unfold checkKind
    split
    · exact .pure _ _
    · exact StepsFrom.require _ _
    · exact StepsFrom.require _ _
  · unfold checkSuper
    split
    · exact .pure _ _
    · split
      · exact .throw _ _
      · exact StepsFrom.requireM ((set.checkClassName_gains _ _).bind fun _ => .pure _) _
  · unfold checkInterface
    split
    · exact StepsFrom.require _ _
    · exact StepsFrom.requireM (set.matchFirst_gains _ _) _

theorem checkField_steps (line : FieldLine) (id : FieldId) :
    StepsFrom may initial (set.checkField line id) := by
  refine (StepsFrom.require _ _).bind fun _ => (StepsFrom.orReason _ _).bind fun type =>
    (StepsFrom.requireM (set.typesAgree_gains _ _) _).bind fun _ =>
      (StepsFrom.require _ _).bind fun _ => (StepsFrom.require _ _).bind fun _ => ?_
  split
  · exact .pure _ _
  · exact StepsFrom.require _ _

theorem checkMethodHead_steps (block : MethodBlock) (m : MethodEntry) :
    StepsFrom may initial (set.checkMethodHead block m) := by
  refine (StepsFrom.require _ _).bind fun _ => (StepsFrom.orReason _ _).bind fun type =>
    .ofGet fun scope reached => ?_
  have compared :=
    reached.trans (Scope.Gains.steps (set.checkMethodTypes_gains block.type type scope))
  cases types : (set.checkMethodTypes block.type type).run scope with
  | error e next =>
    rw [types] at compared
    exact compared
  | ok check next =>
    rw [types] at compared
    have rest : StepsFrom may initial (do
        CheckM.require (block.isStatic == m.isStatic) (.modifier "static")
        CheckM.require (block.isPrivate == m.access.hasAny Access.isPrivate) (.modifier "private")
        CheckM.require (block.isProtected == m.access.hasAny Access.isProtected)
          (.modifier "protected")
        pure type) :=
      (StepsFrom.require _ _).bind fun _ => (StepsFrom.require _ _).bind fun _ =>
        (StepsFrom.require _ _).bind fun _ => .pure _ _
    exact preserves_iff.1 rest next compared

theorem checkBody_steps {block : MethodBlock} {type : MethodDesc} {body : MethodId} {code : Code}
    (allows : BodyContext.AllowsBody ⟨set, body, type⟩ may block.insns code) :
    StepsFrom may initial (set.checkBody block type body code) := by
  refine .ofGet fun scope reached => ?_
  cases walked : walk ⟨set, body, type⟩ block.insns code scope with
  | error fault => exact reached.tail (.clear body)
  | ok r => exact (reached.trans (walk_gains allows walked).steps).tail (.record body r.2)

theorem checkMethod_steps {block : MethodBlock} {owner : ClassId} {id : MethodId}
    (allows : ∀ type body code, set.bodyOf owner id = some body →
      (set.methodAt body).code = some code →
      BodyContext.AllowsBody ⟨set, body, type⟩ may block.insns code) :
    StepsFrom may initial (set.checkMethod block owner id) := by
  refine (set.checkMethodHead_steps block _).bind fun type => ?_
  split
  · split
    · exact .throw _ _
    · split
      · exact .throw _ _
      · exact set.checkBody_steps (allows type _ _ ‹_› ‹_›)
  · exact .pure _ _

theorem verifyElement_steps {α : Type} {check : α → CheckM Unit} {assigned : Option α} {mode : Mode}
    (checks : ∀ x, mode ≠ .add → assigned = some x → StepsFrom may initial (check x))
    (element : String) (kind : ElementKind) (n : Nat) :
    StepsFrom may initial (verifyElement mode element kind check assigned n) := by
  unfold verifyElement
  split
  · exact .pure _ _
  · split
    · exact .throw _ _
    · exact (checks _ ‹_› rfl).pass _ _

/-- All that the trial of an assignment can bind is permitted. -/
structure Allows (set : ClassSet) (may : Scope.Permit) (script : Script)
    (a : Assignment) : Prop where
  field : ∀ e ∈ script.classes.zip a, e.1.mode ≠ .add → ∀ cls, e.2.cls = some cls →
    ∀ f ∈ e.1.fields.zip e.2.fields, f.1.mode ≠ .add → f.1.ident.isBindable = true →
      ∀ id, f.2 = some id → may.field set cls (.of f.1.ident f.1.desc) id
  method : ∀ t ∈ script.targets a, t.block.ident.isBindable = true →
    may.method set t.cls (.of t.block.ident t.block.desc) t.handle
  body : ∀ t ∈ script.targets a, ∀ type body code, t.body? set = some body →
    (set.methodAt body).code = some code →
    BodyContext.AllowsBody ⟨set, body, type⟩ may t.block.insns code

theorem mem_targets {script : Script} {a : Assignment} {e : ClassBlock × ClassChoice}
    (member : e ∈ script.classes.zip a) (notAdded : e.1.mode ≠ .add) {cls : ClassId}
    (isClass : e.2.cls = some cls) {m : MethodBlock × Option MethodId}
    (isMethod : m ∈ e.1.methods.zip e.2.methods) (methodNotAdded : m.1.mode ≠ .add)
    {handle : MethodId} (assigned : m.2 = some handle) :
    ⟨cls, handle, m.1, e.1.mode⟩ ∈ script.targets a := by
  refine List.mem_flatMap.2 ⟨e, member, ?_⟩
  rw [ClassBlock.targets, if_neg notAdded, isClass]
  refine List.mem_flatMap.2 ⟨m, isMethod, ?_⟩
  unfold MethodBlock.target
  rw [if_neg methodNotAdded, assigned]
  exact List.mem_cons_self

variable {script : Script} {a : Assignment}

theorem verifyClass_steps (allows : set.Allows may script a) {e : ClassBlock × ClassChoice}
    (member : e ∈ script.classes.zip a) (n : Nat) :
    StepsFrom may initial (set.verifyClass e.1 e.2 n) := by
  unfold verifyClass
  split
  · exact .pure _ _
  rename_i notAdded
  split
  · exact .throw _ _
  rename_i cls isClass
  refine ((set.checkClass_steps _ _).pass _ _).bind fun _ =>
    (Preserves.foldlM (fun n f _ => ?_) _).bind fun _ => .foldlM (fun n m isMethod => ?_) _
  · exact verifyElement_steps (fun id _ _ => set.checkField_steps f.1 id) _ _ _
  · refine verifyElement_steps (fun id methodNotAdded assigned => set.checkMethod_steps ?_) _ _ _
    exact allows.body _ (mem_targets member notAdded isClass isMethod methodNotAdded assigned)

/-- The checks of an assignment change the scope by permitted steps, also if they fail. -/
theorem verify_steps (allows : set.Allows may script a) :
    StepsFrom may initial (set.verify script a) :=
  (Preserves.foldlM (fun n _ member => set.verifyClass_steps allows member n) _).bind fun _ =>
    .pure _ _

theorem claim_steps {α : Type} {mode : Mode} {ident : Ident} {bind : α → Scope → Option Scope}
    {assigned : Option α}
    (binds : ∀ x, mode ≠ .add → ident.isBindable = true → assigned = some x → ∀ scope later,
      bind x scope = some later → Scope.Binds may scope later)
    (element : String) (kind : ElementKind) (n : Nat) :
    StepsFrom may initial (claim mode element kind ident bind assigned n) := by
  unfold claim
  split
  · exact .pure _ _
  rename_i notAdded
  split
  · exact .throw _ _
  rename_i x
  dsimp only
  split
  · rename_i bindable
    refine .ofGet fun scope reached => ?_
    cases bound : bind x scope with
    | none => exact reached
    | some later => exact reached.tail (.bind (binds x notAdded bindable rfl scope later bound))
  · exact .pure _ _

theorem claimClass_steps (allows : set.Allows may script a) {e : ClassBlock × ClassChoice}
    (member : e ∈ script.classes.zip a) (n : Nat) :
    StepsFrom may initial (set.claimClass e.1 e.2 n) := by
  unfold claimClass
  split
  · exact .pure _ _
  rename_i notAdded
  cases isClass : e.2.cls with
  | none =>
    intro scope reached
    simp only [claim, if_neg notAdded]
    exact reached
  | some cls =>
    refine (claim_steps (fun _ _ _ _ _ _ => .cls) _ _ _).bind fun _ =>
      (Preserves.foldlM (fun n f isField => ?_) _).bind fun _ => .foldlM (fun n m isMethod => ?_) _
    · exact claim_steps (fun id fieldNotAdded bindable assigned _ _ => .field
        (allows.field e member notAdded cls isClass f isField fieldNotAdded bindable id
          assigned)) _ _ _
    · exact claim_steps (fun id methodNotAdded bindable assigned _ _ => .method
        (allows.method _ (mem_targets member notAdded isClass isMethod methodNotAdded assigned)
          bindable))
        _ _ _

/-- Binding the names of a script to what is assigned changes the scope by permitted steps, also if
a name or an element is taken. -/
theorem claimAll_steps (allows : set.Allows may script a) :
    StepsFrom may initial (set.claimAll script a) :=
  Preserves.foldlM (fun n _ member => set.claimClass_steps allows member n) _

/-- Everything may be bound. -/
theorem allows_everything (script : Script) (a : Assignment) : set.Allows .everything script a :=
  ⟨fun _ _ _ _ _ _ _ _ _ _ _ => trivial, fun _ _ _ => trivial,
    fun _ _ _ _ _ _ _ => BodyContext.allowsBody_everything _ _ _⟩

end ClassSet

end JvmPatch
