import JvmPatch.Proofs.Pattern.Recurrence
import JvmPatch.Proofs.Scope.Under

/-! Patterns whose only weak names are names of classes, under a binding of all of them. -/

set_option autoImplicit false

namespace JvmPatch

open ScopeM

def Operand.weakNames : Operand TypeDesc → List String
  | .any => []
  | .is t => t.weakNames

namespace Pattern

def weakNames : Pattern → List String
  | .pushClass t | .type _ t | .newArray t | .newArrayMulti t _ => t.weakNames
  | .field _ owner _ t _ => JvmPatch.weakNames owner.text ++ t.weakNames
  | .invoke _ owner _ t _ => JvmPatch.weakNames owner.text ++ t.weakNames
  | .tryCatch _ _ _ catchType => catchType.elim [] TypeDesc.weakNames
  | _ => []

/-- All labels in the pattern are free, and the name of a member is not weak. -/
def BindsOnlyClasses : Pattern → Prop
  | .label l | .jump _ l => l = .any
  | .tableSwitch _ _ default targets => default = .any ∧ ∀ target ∈ targets, target = .any
  | .lookupSwitch default cases => default = .any ∧ ∀ c ∈ cases, c.2 = .any
  | .tryCatch start stop handler _ => start = .any ∧ stop = .any ∧ handler = .any
  | .field _ _ name _ _ | .invoke _ _ name _ _ => name.isBindable = false
  | _ => True

end Pattern

theorem weakNames_of_arrayCode {t : TypeDesc} {code : UInt8} (h : t.arrayCode? = some code) :
    t.weakNames = [] := by
  unfold TypeDesc.arrayCode? at h
  unfold TypeDesc.weakNames
  split at h
  · cases h
  · cases base : t.base with
    | object name =>
      rw [base] at h
      cases h
    | _ => rfl

namespace DecidesUnder

variable {full : Scope} {names : List String} {test : ScopeM Bool}

theorem onlyIf (decides : DecidesUnder full names test) (condition : Bool) :
    DecidesUnder full names (BodyContext.onlyIf condition test) := by
  cases condition with
  | true => exact decides
  | false => exact .false full names

end DecidesUnder

namespace BodyContext

variable {full : Scope} {cx : BodyContext}

theorem matchType_decidesUnder (injective : full.Injective cx.classes) (pattern : TypeDesc)
    (found : Except DescriptorError TypeDesc) :
    DecidesUnder full pattern.weakNames (cx.matchType pattern found) := by
  cases found with
  | error e => exact .false full _
  | ok type => exact ClassSet.typesAgree_decidesUnder injective pattern type

theorem matchMethodType_decidesUnder (injective : full.Injective cx.classes)
    (pattern : MethodDesc) (desc : String) :
    DecidesUnder full pattern.weakNames (cx.matchMethodType pattern desc) := by
  unfold matchMethodType
  split
  · exact ClassSet.methodTypesAgree_decidesUnder injective pattern _
  · exact .false full _

theorem matchClassOperand_decidesUnder (injective : full.Injective cx.classes)
    (pattern : Operand TypeDesc) (operand : String) :
    DecidesUnder full pattern.weakNames (cx.matchClassOperand pattern operand) := by
  cases pattern with
  | any => exact .pure full true
  | is type => exact matchType_decidesUnder injective type _

theorem matchOwner_decidesUnder (injective : full.Injective cx.classes) (pattern : Ident)
    (owner : String) : DecidesUnder full (weakNames pattern.text) (cx.matchOwner pattern owner) :=
  ClassSet.namesAgree_decidesUnder injective pattern.text owner

theorem matchFieldName_decidesUnder {pattern : Ident} (notWeak : pattern.isBindable = false)
    (patternDesc owner name desc : String) :
    DecidesUnder full [] (cx.matchFieldName pattern patternDesc owner name desc) := by
  rw [matchFieldName_eq, notWeak]
  exact .pure full _

theorem matchMethodName_decidesUnder {pattern : Ident} (notWeak : pattern.isBindable = false)
    (patternDesc owner name desc : String) :
    DecidesUnder full [] (cx.matchMethodName pattern patternDesc owner name desc) := by
  rw [matchMethodName_eq, notWeak]
  exact .pure full _

theorem matchLabel_decidesUnder {pattern : LabelRef} (free : pattern = .any) (label : Label) :
    DecidesUnder full [] (cx.matchLabel pattern label) := by
  rw [free]
  exact .pure full true

theorem matchTargets_decidesUnder {patterns : List LabelRef}
    (free : ∀ pattern ∈ patterns, pattern = .any) (targets : List Label) :
    DecidesUnder full [] (cx.matchTargets patterns targets) := by
  refine (DecidesUnder.all (fun _ => []) fun p member => ?_).of_eq (by simp)
  exact matchLabel_decidesUnder (free p.1 (List.of_mem_zip member).1) p.2

theorem matchCases_decidesUnder {patterns : List (Operand Int32 × LabelRef)}
    (free : ∀ c ∈ patterns, c.2 = .any) (pairs : List (Int32 × Label)) :
    DecidesUnder full [] (cx.matchCases patterns pairs) := by
  refine (DecidesUnder.all (fun _ => []) fun p member => ?_).of_eq (by simp)
  exact (matchLabel_decidesUnder (free p.1 (List.of_mem_zip member).1) p.2.2).onlyIf _

/-- Matching a pattern decides what it means under a binding of all class names. -/
theorem matchInsn_decidesUnder (injective : full.Injective cx.classes) {pattern : Pattern}
    (only : pattern.BindsOnlyClasses) (insn : Insn) :
    DecidesUnder full pattern.weakNames (cx.matchInsn pattern insn) := by
  unfold matchInsn
  split
  case h_1 => exact matchLabel_decidesUnder only _
  case h_9 => exact matchClassOperand_decidesUnder injective _ _
  case h_12 => exact (matchLabel_decidesUnder only _).onlyIf _
  case h_13 =>
    exact ((matchLabel_decidesUnder only.1 _).both (matchTargets_decidesUnder only.2 _)).onlyIf _
  case h_14 =>
    exact ((matchLabel_decidesUnder only.1 _).both (matchCases_decidesUnder only.2 _)).onlyIf _
  case h_15 =>
    exact ((matchOwner_decidesUnder injective _ _).both
      ((matchFieldName_decidesUnder only _ _ _ _).both
      (matchType_decidesUnder injective _ _))).onlyIf _
  case h_16 =>
    exact ((matchOwner_decidesUnder injective _ _).both
      ((matchMethodName_decidesUnder only _ _ _ _).both
      (matchMethodType_decidesUnder injective _ _))).onlyIf _
  case h_17 => exact (matchClassOperand_decidesUnder injective _ _).onlyIf _
  case h_18 =>
    refine DecidesUnder.onlyIf ?_ _
    split
    · exact .pure full true
    · rename_i element
      exact (matchClassOperand_decidesUnder injective (.is element) _).onlyIf _
  case h_19 t code =>
    split
    · exact .pure full true
    · rename_i element
      cases fits : element.arrayCode? == some code with
      | false => exact .false full _
      | true =>
        refine (DecidesUnder.pure full true).of_eq ?_
        exact weakNames_of_arrayCode (eq_of_beq fits)
  case h_20 =>
    refine DecidesUnder.onlyIf ?_ _
    split
    · exact .pure full true
    · exact matchType_decidesUnder injective _ _
  case h_21 => exact .false full _
  all_goals exact .pure full _

/-- Matching an exception region decides what it means under a binding of all class names. -/
theorem matchRegion_decidesUnder (injective : full.Injective cx.classes)
    {start stop handler : LabelRef} {catchType : Option TypeDesc}
    (only : (Pattern.tryCatch start stop handler catchType).BindsOnlyClasses) (region : Region) :
    DecidesUnder full (Pattern.tryCatch start stop handler catchType).weakNames
      (cx.matchRegion start stop handler catchType region) := by
  have catches : DecidesUnder full (catchType.elim [] TypeDesc.weakNames)
      (cx.matchCatchType catchType region.catchType) := by
    unfold matchCatchType
    split
    · exact .pure full true
    · exact ClassSet.typesAgree_decidesUnder injective _ _
    · exact .false full _
  refine (catches.both ((matchLabel_decidesUnder only.1 _).both
    ((matchLabel_decidesUnder only.2.1 _).both (matchLabel_decidesUnder only.2.2 _)))).of_eq ?_
  simp [Pattern.weakNames]

end BodyContext

end JvmPatch
