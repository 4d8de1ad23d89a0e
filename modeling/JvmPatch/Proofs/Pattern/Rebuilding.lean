import JvmPatch.Pattern.Instantiate
import JvmPatch.Proofs.ClassSet.Growth
import JvmPatch.Proofs.Descriptor
import JvmPatch.Proofs.Pattern.Recurrence
import JvmPatch.Proofs.Scope.Members
import JvmPatch.Proofs.Scope.Patterns

/-! A pattern that has matched an instruction stands for that instruction, as long as the name of a
member is found again in the class through which the instruction refers to the member. -/

set_option autoImplicit false

namespace JvmPatch

open ScopeM

/-- The same instruction, with another mark of a call whether it is one of an interface. -/
def Insn.withInterface (isInterface : Bool) : Insn → Insn
  | .invoke op owner name desc _ => .invoke op owner name desc isInterface
  | insn => insn

namespace Pattern

/-- The class name in a reference has been read. -/
def OwnerIsRead : Pattern → Prop
  | .field _ owner _ _ _ | .invoke _ owner _ _ _ => ∃ s, owner = .ofText s
  | _ => True

/-- A switch lists as many cases as the one in the code. -/
def ListsAllCases : Pattern → Insn → Prop
  | .tableSwitch _ _ _ ls, .tableSwitch _ _ _ targets => ls.length = targets.length
  | .lookupSwitch _ cases, .lookupSwitch _ pairs => cases.length = pairs.length
  | _, _ => True

/-- The type of a new array of several dimensions is one of arrays. -/
def MakesArrays : Pattern → Prop
  | .newArrayMulti (.is t) _ => t.isArray = true
  | _ => True

/-- The class through which the instruction refers to a member declares or has the member, if the
pattern has a weak name for it that differs from its own. -/
def RegainsName (set : ClassSet) : Pattern → Insn → Prop
  | .field _ _ name _ _, .field _ owner fieldName desc =>
    name.isBindable = true → name.name ≠ fieldName →
    ∀ cls id, set.meantField? owner fieldName desc = some (cls, id) → set.HoldsField cls id
  | .invoke _ _ name _ _, .invoke _ owner methodName desc _ =>
    name.isBindable = true → name.name ≠ methodName →
    ∀ cls id, set.meantMethod? owner methodName desc = some (cls, id) → set.HoldsMethod cls id
  | _, _ => True

end Pattern

theorem Operand.eq_is_of_accepts {α : Type} [DecidableEq α] {o : Operand α} {value : α}
    (closed : o.isAny = false) (accepts : o.accepts value = true) : o = .is value := by
  cases o with
  | any => cases closed
  | is expected => rw [eq_of_beq accepts]

theorem Operand.exists_closed {o : Operand TypeDesc} (closed : o.isOpenType = false) :
    ∃ t, o = .is t ∧ t.hasWildcard = false := by
  cases o with
  | any => cases closed
  | is t => exact ⟨t, rfl, closed⟩

theorem TypeDesc.arrayCode?_of_isReference {t : TypeDesc} (reference : t.isReference = true) :
    t.arrayCode? = none := by
  unfold arrayCode?
  unfold isReference at reference
  cases isArray : t.isArray with
  | true => rfl
  | false =>
    rw [isArray, Bool.false_or] at reference
    split at reference
    · rename_i name isObject
      rw [isObject]
      rfl
    · cases reference

/-- A type of a script stands for a type with as many dimensions. -/
theorem Scope.isArray_of_mapType {scope : Scope} {set : ClassSet} {type real : TypeDesc}
    (means : scope.mapType set type = .ok real) : real.isArray = type.isArray := by
  unfold mapType at means
  split at means
  · rename_i name isObject
    cases mapped : scope.mapClass set name with
    | error e =>
      rw [mapped] at means
      cases means
    | ok name =>
      rw [mapped] at means
      cases means
      rfl
  · cases means
    rfl

theorem Pattern.hasWildcard_of_checkAddable {pattern : Pattern}
    (addable : pattern.checkAddable = .ok ()) :
    pattern.hasWildcard = false := by
  unfold checkAddable at addable
  split at addable
  · cases addable
  · split at addable
    · cases addable
    · exact eq_false_of_ne_true ‹_›

/-! ### Names -/

theorem Ident.isAnyName_text {owner : Ident} (read : ∃ s, owner = .ofText s) :
    isAnyName owner.text = owner.isWildcard := by
  obtain ⟨s, rfl⟩ := read
  rw [ofText]
  unfold ofChars
  split
  · rename_i rest same
    rw [Bool.eq_iff_iff]
    simp only [text, isWildcard, isAnyName, if_true, Bool.or_eq_true, beq_iff_eq,
      ← String.toList_inj, String.toList_append, String.toList_ofList]
    simp
  · rename_i noTilde
    have strong : s ≠ "~*" := by
      rintro rfl
      exact noTilde ['*'] rfl
    simp [text, isWildcard, isAnyName, strong]

namespace ClassSet

variable {set : ClassSet} {owner name desc : String}

theorem of_meantField? {cls : ClassId} {id : FieldId}
    (meant : set.meantField? owner name desc = some (cls, id)) :
    set.find? owner = some cls ∧ (set.fieldAt id).name = name := by
  obtain ⟨_, known, found⟩ := Option.bind_eq_some_iff.1 meant
  obtain ⟨_, found, same⟩ := Option.map_eq_some_iff.1 found
  cases same
  obtain ⟨at_, -, declared⟩ := List.exists_of_findSome?_eq_some found
  have signature := List.find?_some declared
  rw [FieldEntry.hasSignature, Bool.and_eq_true, beq_iff_eq] at signature
  exact ⟨known, signature.1⟩

theorem of_meantMethod? {cls : ClassId} {id : MethodId}
    (meant : set.meantMethod? owner name desc = some (cls, id)) :
    set.find? owner = some cls ∧ (set.methodAt id).name = name := by
  obtain ⟨_, known, found⟩ := Option.bind_eq_some_iff.1 meant
  obtain ⟨_, found, same⟩ := Option.map_eq_some_iff.1 found
  cases same
  obtain ⟨at_, -, shown⟩ := List.exists_of_findSome?_eq_some found
  have signature := List.find?_some shown
  rw [MethodEntry.hasSignature, Bool.and_eq_true, beq_iff_eq] at signature
  exact ⟨known, signature.1⟩

end ClassSet

/-! ### What a step builds -/

section Steps

variable {α β : Type} {cx : BodyContext} {names : Labelling}

theorem run_value_is {x : α} : (Operand.is x).value.run names = .ok x names := rfl

theorem run_mapped_of_ok {f : Scope → Except UnboundName α} {x : α} (ok : f names.scope = .ok x) :
    (BodyContext.mapped f).run names = .ok x names := by
  rw [BodyContext.mapped, run_bind_of_ok (EStateM.run_get names), ok]
  rfl

theorem run_classOperandFor {type real : TypeDesc}
    (means : names.scope.mapType cx.classes type = .ok real) :
    (cx.classOperandFor type).run names = .ok real.classOperand names := by
  rw [BodyContext.classOperandFor, run_bind_of_ok (run_mapped_of_ok means)]
  rfl

theorem run_labelFor {name : String} {l : Label}
    (means : names.scope.label? cx.body name = some l) :
    (cx.labelFor (.weak name)).run names = .ok l names := by
  rw [BodyContext.labelFor, run_bind_of_ok (EStateM.run_get names), means]
  rfl

theorem run_mapM_of_forall₂ {f : α → InstantiateM β} {xs : List α} {ys : List β}
    (each : List.Forall₂ (fun x y => (f x).run names = .ok y names) xs ys) :
    (xs.mapM f).run names = .ok ys names := by
  induction each with
  | nil => rfl
  | cons one _ ih =>
    rw [List.mapM_cons, run_bind_of_ok one, run_bind_of_ok ih]
    rfl

end Steps

namespace BodyContext

variable {cx : BodyContext} {scope later : Scope}

/-! ### What a test finds out -/

/-- A label of a script stands for a label of the body. -/
def RefersTo (cx : BodyContext) (scope : Scope) : LabelRef → Label → Prop
  | .any, _ => False
  | .weak name, l => scope.label? cx.body name = some l

theorem run_labelFor_of_refersTo {names : Labelling} {p : LabelRef} {l : Label}
    (refers : cx.RefersTo names.scope p l) : (cx.labelFor p).run names = .ok l names := by
  cases p with
  | any => exact refers.elim
  | weak name => exact run_labelFor refers

theorem RefersTo.extends_ {p : LabelRef} {l : Label} (refers : cx.RefersTo scope p l)
    (extended : later.Extends scope) : cx.RefersTo later p l := by
  cases p with
  | any => exact refers
  | weak name => exact extended.labels _ _ refers

theorem refersTo_of_matchLabel {p : LabelRef} {l : Label} (notAny : p ≠ .any)
    (matched : (cx.matchLabel p l).run scope = (true, later)) : cx.RefersTo later p l := by
  cases p with
  | any => exact (notAny rfl).elim
  | weak name =>
    rw [matchLabel, run_update] at matched
    obtain ⟨isSome, rfl⟩ := Prod.mk.inj matched
    obtain ⟨next, bound⟩ := Option.isSome_iff_exists.1 isSome
    rw [bound]
    exact (Scope.bindLabel?_eq_some bound).1

/-- What every one of some tests finds out, and what further bindings keep, holds in the end. -/
theorem forall₂_of_all {α β : Type} {set : ClassSet} {test : α × β → ScopeM Bool}
    {holds : Scope → α → β → Prop} {xs : List α} {ys : List β} (counts : xs.length = ys.length)
    (widens : ∀ e, Widening set (test e))
    (stays : ∀ scope later x y, holds scope x y → later.Extends scope → holds later x y)
    (each : ∀ x ∈ xs, ∀ y, ∀ scope later, (test (x, y)).run scope = (true, later) → holds later x y)
    (matched : (all test (xs.zip ys)).run scope = (true, later)) :
    List.Forall₂ (holds later) xs ys := by
  induction xs generalizing ys scope with
  | nil =>
    obtain rfl := List.length_eq_zero_iff.1 counts.symm
    exact .nil
  | cons x xs ih =>
    cases ys with
    | nil => cases counts
    | cons y ys =>
      rw [List.zip_cons_cons, all] at matched
      obtain ⟨middle, one, rest⟩ := run_both_eq_true matched
      have extended : later.Extends middle := by
        have widening := Widening.all (fun e (_ : e ∈ xs.zip ys) => widens e) middle
        rw [rest] at widening
        exact widening.extends_
      refine .cons (stays _ _ _ _ (each x List.mem_cons_self y _ _ one) extended) ?_
      exact ih (Nat.succ.inj counts) (fun x member => each x (.tail _ member)) rest

theorem mapType_of_typesAgree {pattern type : TypeDesc} (noWildcard : pattern.hasWildcard = false)
    (matched : (cx.classes.typesAgree pattern type).run scope = (true, later)) :
    later.mapType cx.classes pattern = .ok type ∧
      later = { scope with classes := later.classes } := by
  obtain ⟨accepted, rfl⟩ := Prod.mk.inj matched
  obtain ⟨gained, fits⟩ := ClassSet.checkType_gained rfl accepted
  exact ⟨Scope.mapType_of_fits fits noWildcard, gained.classesOnly⟩

theorem mapType_of_matchType {type : TypeDesc} {desc : String}
    (noWildcard : type.hasWildcard = false)
    (matched : (cx.matchType type (TypeDesc.parse desc)).run scope = (true, later)) :
    ∃ real, later.mapType cx.classes type = .ok real ∧ real.text = desc ∧
      later = { scope with classes := later.classes } := by
  cases parsed : TypeDesc.parse desc with
  | error e =>
    rw [parsed] at matched
    cases matched
  | ok real =>
    rw [parsed] at matched
    obtain ⟨means, only⟩ := mapType_of_typesAgree noWildcard matched
    exact ⟨real, means, TypeDesc.text_of_parse parsed, only⟩

/-- A type of a script stands for the operand of a class instruction that it has matched. -/
theorem mapType_of_matchClassOperand {type : TypeDesc} {operand : String}
    (noWildcard : type.hasWildcard = false)
    (matched : (cx.matchClassOperand (.is type) operand).run scope = (true, later)) :
    ∃ real, later.mapType cx.classes type = .ok real ∧ real.classOperand = operand := by
  change (cx.matchType type (TypeDesc.parseOperand operand)).run scope = _ at matched
  cases parsed : TypeDesc.parseOperand operand with
  | error e =>
    rw [parsed] at matched
    cases matched
  | ok real =>
    rw [parsed] at matched
    exact ⟨real, (mapType_of_typesAgree noWildcard matched).1,
      TypeDesc.classOperand_of_parseOperand parsed⟩

theorem mapMethod_of_matchMethodType {pattern : MethodDesc} {desc : String}
    (noWildcard : pattern.hasWildcard = false)
    (matched : (cx.matchMethodType pattern desc).run scope = (true, later)) :
    ∃ type, later.mapMethod cx.classes pattern = .ok type ∧ type.text = desc ∧
      later = { scope with classes := later.classes } := by
  unfold matchMethodType at matched
  split at matched
  · rename_i type parsed
    change cx.classes.methodTypesAgree pattern type scope = _ at matched
    unfold ClassSet.methodTypesAgree at matched
    split at matched
    · rename_i check reached ran
      obtain rfl := (Prod.mk.inj matched).2
      obtain ⟨gained, fits⟩ := ClassSet.checkMethodTypes_gained ran
      exact ⟨type, Scope.mapMethod_of_fits fits noWildcard, MethodDesc.text_of_parse parsed,
        gained.classesOnly⟩
    · cases matched
  · cases matched

theorem mapClass_of_matchOwner {pattern : Ident} {owner : String} (read : ∃ s, pattern = .ofText s)
    (noWildcard : pattern.isWildcard = false)
    (matched : (cx.matchOwner pattern owner).run scope = (true, later)) (final : Scope)
    (extended : final.Extends later) : final.mapClass cx.classes pattern.text = .ok owner := by
  obtain ⟨accepted, rfl⟩ := Prod.mk.inj matched
  obtain ⟨-, fits⟩ := ClassSet.checkClassName_gained rfl accepted
  exact Scope.mapClass_of_fits (fits.mono extended.classes)
    ((Ident.isAnyName_text read).trans noWildcard)

theorem memberName_eq_iff {pattern : Ident} {name : String} (weak : pattern.weak = true)
    (holds : Prop) [Decidable holds] :
    memberName pattern (if holds then some name else none) = name ↔
      (pattern.name ≠ name → holds) := by
  by_cases isTrue : holds
  · simp [memberName, weak, isTrue]
  · simp [memberName, weak, isTrue]

/-- The test of a weak name leaves it with its meaning where it has one. -/
theorem standsFor_of_nameTest {α : Type} [DecidableEq α] {cls : ClassId} {x : α}
    {standsFor : ClassId → Scope → Option α} {bind : ClassId → α → Scope → Option Scope}
    {holds : Prop} [Decidable holds] (stands : standsFor cls scope = some x → holds)
    (binds : ∀ next, standsFor cls scope = none → bind cls x scope = some next →
      standsFor cls next = if holds then some x else none)
    (matched : (nameTest (some (cls, x)) standsFor bind).run scope = (true, later)) :
    standsFor cls later = if holds then some x else none := by
  rw [run_nameTest] at matched
  split at matched
  · rename_i found isFound
    obtain ⟨isSame, rfl⟩ := Prod.mk.inj matched
    obtain rfl := eq_of_beq isSame
    rw [if_pos (stands isFound), isFound]
  · rename_i unused
    obtain ⟨isSome, rfl⟩ := Prod.mk.inj matched
    obtain ⟨next, bound⟩ := Option.isSome_iff_exists.1 isSome
    rw [bound]
    exact binds next unused bound

/-- The name of a field that has matched gives the name of the field back exactly if it is strong,
the class in the reference has the field, or the field is called like the weak name anyway. -/
theorem memberName_of_matchFieldName {pattern : Ident} {d owner name desc : String} {final : Scope}
    (noWildcard : pattern.isWildcard = false)
    (matched : (cx.matchFieldName pattern d owner name desc).run scope = (true, later))
    (same : final.fields = later.fields) :
    memberName pattern (((cx.classes.find? owner).bind fun cls =>
        final.field? cx.classes cls (.of pattern d)).map fun f =>
          (cx.classes.fieldAt f).name) = name ↔
      (pattern.isBindable = true → pattern.name ≠ name →
        ∀ cls id, cx.classes.meantField? owner name desc = some (cls, id) →
          cx.classes.HoldsField cls id) := by
  have congr (cls : ClassId) (key : MemberKey) :
      final.field? cx.classes cls key = later.field? cx.classes cls key := by
    simp only [Scope.field?, Scope.fieldsOf, same]
  rw [matchFieldName_eq] at matched
  cases weak : pattern.weak with
  | false =>
    have strong : pattern.isBindable = false := by simp [Ident.isBindable, weak]
    rw [strong, if_neg Bool.false_ne_true, noWildcard, Bool.false_or] at matched
    have isName : pattern.name = name := by simpa using (Prod.mk.inj matched).1
    simp [memberName, weak, isName, strong]
  | true =>
    have bindable : pattern.isBindable = true := by simp [Ident.isBindable, weak, noWildcard]
    rw [if_pos bindable] at matched
    obtain ⟨cls, id, meant, -⟩ := (nameTest_iff _ _ _ scope).1 (congrArg Prod.fst matched)
    obtain ⟨known, isName⟩ := ClassSet.of_meantField? meant
    rw [meant] at matched
    have holds : scope.field? cx.classes cls (.of pattern d) = some id →
        cx.classes.HoldsField cls id :=
      Scope.holdsField_of_field?
    have regained := standsFor_of_nameTest holds (fun _ => Scope.field?_of_bindField?) matched
    rw [known, Option.bind_some, congr, regained, apply_ite (Option.map _), Option.map_some, isName,
      Option.map_none, memberName_eq_iff weak]
    simp [meant, bindable]

theorem memberName_of_matchMethodName {pattern : Ident} {d owner name desc : String} {final : Scope}
    (noWildcard : pattern.isWildcard = false)
    (matched : (cx.matchMethodName pattern d owner name desc).run scope = (true, later))
    (same : final.methods = later.methods) :
    memberName pattern (((cx.classes.find? owner).bind fun cls =>
        final.method? cx.classes cls (.of pattern d)).map fun m =>
          (cx.classes.methodAt m).name) = name ↔
      (pattern.isBindable = true → pattern.name ≠ name →
        ∀ cls id, cx.classes.meantMethod? owner name desc = some (cls, id) →
          cx.classes.HoldsMethod cls id) := by
  have congr (cls : ClassId) (key : MemberKey) :
      final.method? cx.classes cls key = later.method? cx.classes cls key := by
    simp only [Scope.method?, Scope.methodsOf, same]
  rw [matchMethodName_eq] at matched
  cases weak : pattern.weak with
  | false =>
    have strong : pattern.isBindable = false := by simp [Ident.isBindable, weak]
    rw [strong, if_neg Bool.false_ne_true, noWildcard, Bool.false_or] at matched
    have isName : pattern.name = name := by simpa using (Prod.mk.inj matched).1
    simp [memberName, weak, isName, strong]
  | true =>
    have bindable : pattern.isBindable = true := by simp [Ident.isBindable, weak, noWildcard]
    rw [if_pos bindable] at matched
    obtain ⟨cls, id, meant, -⟩ := (nameTest_iff _ _ _ scope).1 (congrArg Prod.fst matched)
    obtain ⟨known, isName⟩ := ClassSet.of_meantMethod? meant
    rw [meant] at matched
    have holds : scope.method? cx.classes cls (.of pattern d) = some id →
        cx.classes.HoldsMethod cls id :=
      Scope.holdsMethod_of_method?
    have regained := standsFor_of_nameTest holds (fun _ => Scope.method?_of_bindMethod?) matched
    rw [known, Option.bind_some, congr, regained, apply_ite (Option.map _), Option.map_some, isName,
      Option.map_none, memberName_eq_iff weak]
    simp [meant, bindable]

theorem of_onlyIf {condition : Bool} {test : ScopeM Bool}
    (matched : (onlyIf condition test).run scope = (true, later)) :
    condition = true ∧ test.run scope = (true, later) := by
  cases condition with
  | true => exact ⟨rfl, matched⟩
  | false => cases matched

theorem refersTo_of_matchTargets {ls : List LabelRef} {targets : List Label}
    (counts : ls.length = targets.length) (noneAny : ls.contains .any = false)
    (matched : (cx.matchTargets ls targets).run scope = (true, later)) :
    List.Forall₂ (cx.RefersTo later) ls targets := by
  refine forall₂_of_all counts (fun e => cx.matchLabel_widening e.1 e.2 cx.classes)
    (fun _ _ _ _ refers extended => refers.extends_ extended)
      (fun l member target start found ran => ?_) matched
  refine refersTo_of_matchLabel ?_ ran
  rintro rfl
  simp [member] at noneAny

theorem of_matchCases {cases : List (Operand Int32 × LabelRef)} {pairs : List (Int32 × Label)}
    (counts : cases.length = pairs.length)
    (noneAny : (cases.any fun c => c.1.isAny || c.2 == .any) = false)
    (matched : (cx.matchCases cases pairs).run scope = (true, later)) :
    List.Forall₂ (fun c p => c.1 = .is p.1 ∧ cx.RefersTo later c.2 p.2) cases pairs := by
  let agrees (scope : Scope) (c : Operand Int32 × LabelRef) (p : Int32 × Label) : Prop :=
    c.1 = .is p.1 ∧ cx.RefersTo scope c.2 p.2
  change List.Forall₂ (agrees later) cases pairs
  refine forall₂_of_all counts
    (fun e => onlyIf_widening cx.classes _ (cx.matchLabel_widening e.1.2 e.2.2 _))
    (fun _ _ _ _ refers extended => ⟨refers.1, refers.2.extends_ extended⟩)
    (fun c member pair start found ran => ?_) matched
  have closed := List.any_eq_false.1 noneAny c member
  rw [Bool.not_eq_true, Bool.or_eq_false_iff, beq_eq_false_iff_ne] at closed
  obtain ⟨accepts, ran⟩ := of_onlyIf ran
  exact ⟨Operand.eq_is_of_accepts closed.1 accepts, refersTo_of_matchLabel closed.2 ran⟩

/-! ### What a pattern builds -/

theorem instantiate_tableSwitch {lowest highest : Operand Int32} {d : LabelRef} {ls : List LabelRef}
    {low high : Int32} {default : Label} {targets : List Label} {next : Nat}
    (closed : (Pattern.tableSwitch lowest highest d ls).hasWildcard = false)
    (counts : ls.length = targets.length)
    (matched : (cx.matchInsn (.tableSwitch lowest highest d ls)
      (.tableSwitch low high default targets)).run scope = (true, later)) :
    (cx.instantiate (.tableSwitch lowest highest d ls)).run ⟨later, next⟩ =
      .ok (.tableSwitch low high default targets) ⟨later, next⟩ := by
  simp only [Pattern.hasWildcard, Bool.or_eq_false_iff, beq_eq_false_iff_ne] at closed
  obtain ⟨⟨⟨closedLow, closedHigh⟩, notAny⟩, noneAny⟩ := closed
  obtain ⟨bounds, both⟩ := of_onlyIf matched
  simp only [Bool.and_eq_true] at bounds
  obtain ⟨middle, one, two⟩ := run_both_eq_true both
  have extended := (matchTargets_widening cx ls targets middle).extends_
  rw [two] at extended
  have refers := (refersTo_of_matchLabel notAny one).extends_ extended
  have rest : (ls.mapM cx.labelFor).run ⟨later, next⟩ = .ok targets ⟨later, next⟩ :=
    run_mapM_of_forall₂ ((refersTo_of_matchTargets counts noneAny two).imp
      fun _ _ => run_labelFor_of_refersTo)
  rw [Operand.eq_is_of_accepts closedLow bounds.1.1,
    Operand.eq_is_of_accepts closedHigh bounds.1.2, instantiate, run_bind_of_ok run_value_is,
    run_bind_of_ok run_value_is, run_bind_of_ok (run_labelFor_of_refersTo refers),
    run_bind_of_ok rest]
  rfl

theorem instantiate_lookupSwitch {d : LabelRef} {cases : List (Operand Int32 × LabelRef)}
    {default : Label} {pairs : List (Int32 × Label)} {next : Nat}
    (closed : (Pattern.lookupSwitch d cases).hasWildcard = false)
    (counts : cases.length = pairs.length)
    (matched : (cx.matchInsn (.lookupSwitch d cases) (.lookupSwitch default pairs)).run scope =
      (true, later)) :
    (cx.instantiate (.lookupSwitch d cases)).run ⟨later, next⟩ =
      .ok (.lookupSwitch default pairs) ⟨later, next⟩ := by
  obtain ⟨notAny, noneAny⟩ := Bool.or_eq_false_iff.1 closed
  obtain ⟨-, both⟩ := of_onlyIf matched
  obtain ⟨middle, one, two⟩ := run_both_eq_true both
  have extended := (matchCases_widening cx cases pairs middle).extends_
  rw [two] at extended
  have refers := (refersTo_of_matchLabel (beq_eq_false_iff_ne.1 notAny) one).extends_ extended
  rw [instantiate, run_bind_of_ok (run_labelFor_of_refersTo refers),
    run_bind_of_ok (run_mapM_of_forall₂ ((of_matchCases counts noneAny two).imp
      fun c p agrees => ?_))]
  · rfl
  · rw [agrees.1, run_bind_of_ok run_value_is, run_bind_of_ok (run_labelFor_of_refersTo agrees.2)]
    rfl

theorem instantiate_field {expected op : Opcode} {o n : Ident} {t : TypeDesc}
    {d owner name desc : String} {next : Nat}
    (closed : (Pattern.field expected o n t d).hasWildcard = false) (read : ∃ s, o = .ofText s)
    (matched : (cx.matchInsn (.field expected o n t d) (.field op owner name desc)).run scope =
      (true, later)) :
    ∃ given, (cx.instantiate (.field expected o n t d)).run ⟨later, next⟩ =
        .ok (.field op owner given desc) ⟨later, next⟩ ∧
      (given = name ↔ (Pattern.field expected o n t d).RegainsName cx.classes
        (.field op owner name desc)) := by
  simp only [Pattern.hasWildcard, Bool.or_eq_false_iff] at closed
  obtain ⟨⟨ownerClosed, nameClosed⟩, typeClosed⟩ := closed
  obtain ⟨isOp, both⟩ := of_onlyIf matched
  obtain rfl := eq_of_beq isOp
  obtain ⟨middle, one, rest⟩ := run_both_eq_true both
  obtain ⟨middle', two, three⟩ := run_both_eq_true rest
  have extended : later.Extends middle := by
    have named := (matchFieldName_widening cx n d owner name desc cx.classes middle).extends_
    have typed := (matchType_widening cx t (TypeDesc.parse desc) middle').extends_
    rw [two] at named
    rw [three] at typed
    exact typed.trans named
  obtain ⟨type, typeMeans, rfl, only⟩ := mapType_of_matchType typeClosed three
  refine ⟨_, ?_, memberName_of_matchFieldName nameClosed two (show later.fields = _ by rw [only])⟩
  rw [instantiate, run_bind_of_ok
    (run_mapped_of_ok (mapClass_of_matchOwner read ownerClosed one later extended))]
  change (mapped _ >>= _ : InstantiateM Insn).run _ = _
  rw [run_bind_of_ok (run_mapped_of_ok typeMeans)]
  rfl

theorem instantiate_invoke {expected op : Opcode} {o n : Ident} {t : MethodDesc}
    {d owner name desc : String} {isInterface : Bool} {next : Nat}
    (closed : (Pattern.invoke expected o n t d).hasWildcard = false) (read : ∃ s, o = .ofText s)
    (matched : (cx.matchInsn (.invoke expected o n t d)
      (.invoke op owner name desc isInterface)).run scope = (true, later)) :
    ∃ given onInterface, (cx.instantiate (.invoke expected o n t d)).run ⟨later, next⟩ =
        .ok (.invoke op owner given desc onInterface) ⟨later, next⟩ ∧
      (given = name ↔
        (Pattern.invoke expected o n t d).RegainsName cx.classes
          (.invoke op owner name desc isInterface)) := by
  simp only [Pattern.hasWildcard, Bool.or_eq_false_iff] at closed
  obtain ⟨⟨⟨ownerClosed, nameClosed⟩, paramsClosed⟩, resultClosed⟩ := closed
  obtain ⟨isOp, both⟩ := of_onlyIf matched
  obtain rfl := eq_of_beq isOp
  obtain ⟨middle, one, rest⟩ := run_both_eq_true both
  obtain ⟨middle', two, three⟩ := run_both_eq_true rest
  have extended : later.Extends middle := by
    have named := (matchMethodName_widening cx n d owner name desc cx.classes middle).extends_
    have typed := (matchMethodType_widening cx t desc middle').extends_
    rw [two] at named
    rw [three] at typed
    exact typed.trans named
  obtain ⟨type, typeMeans, rfl, only⟩ :=
    mapMethod_of_matchMethodType (Bool.or_eq_false_iff.2 ⟨paramsClosed, resultClosed⟩) three
  refine ⟨_, expected == Opcode.invokeinterface || (cx.classes.find? owner).any fun id =>
    (cx.classes.classAt id).isInterface, ?_, memberName_of_matchMethodName nameClosed two
    (show later.methods = _ by rw [only])⟩
  rw [instantiate, run_bind_of_ok
    (run_mapped_of_ok (mapClass_of_matchOwner read ownerClosed one later extended))]
  change (mapped _ >>= _ : InstantiateM Insn).run _ = _
  rw [run_bind_of_ok (run_mapped_of_ok typeMeans)]
  rfl

theorem instantiate_newObjectArray {element : TypeDesc} {op : Opcode}
    {className : String} {next : Nat} (closed : element.hasWildcard = false)
    (matched : (cx.matchInsn (.newArray (.is element)) (.type op className)).run scope =
      (true, later)) :
    (cx.instantiate (.newArray (.is element))).run ⟨later, next⟩ =
      .ok (.type op className) ⟨later, next⟩ := by
  obtain ⟨isOp, inner⟩ := of_onlyIf matched
  obtain rfl := eq_of_beq isOp
  obtain ⟨reference, inner⟩ := of_onlyIf inner
  obtain ⟨real, means, rfl⟩ := mapType_of_matchClassOperand closed inner
  rw [instantiate, run_bind_of_ok run_value_is]
  simp only [TypeDesc.arrayCode?_of_isReference reference]
  rw [run_bind_of_ok (run_classOperandFor means)]
  rfl

theorem instantiate_newArrayMulti {type : TypeDesc} {n : Operand UInt8} {desc : String}
    {dims : UInt8} {next : Nat} (closed : type.hasWildcard = false) (countClosed : n.isAny = false)
    (isArray : type.isArray = true)
    (matched : (cx.matchInsn (.newArrayMulti (.is type) n) (.multiNewArray desc dims)).run scope =
      (true, later)) :
    (cx.instantiate (.newArrayMulti (.is type) n)).run ⟨later, next⟩ =
      .ok (.multiNewArray desc dims) ⟨later, next⟩ := by
  obtain ⟨accepts, inner⟩ := of_onlyIf matched
  obtain rfl := Operand.eq_is_of_accepts countClosed accepts
  obtain ⟨real, means, rfl, -⟩ := mapType_of_matchType closed inner
  rw [instantiate, run_bind_of_ok run_value_is, run_bind_of_ok (run_mapped_of_ok means)]
  simp only [(Scope.isArray_of_mapType means).trans isArray]
  rfl

/-- A pattern that has matched an instruction, and that can be added, builds an instruction in the
scope that the match leaves, and this changes neither the scope nor the labels that are free. It is
the instruction that has matched, but perhaps for the mark of a call, exactly if the weak name of a
member is found again. -/
theorem instantiate_of_matchInsn {pattern : Pattern} {insn : Insn} (next : Nat)
    (addable : pattern.checkAddable = .ok ()) (read : pattern.OwnerIsRead)
    (listsAll : pattern.ListsAllCases insn) (arrays : pattern.MakesArrays)
    (matched : (cx.matchInsn pattern insn).run scope = (true, later)) :
    ∃ built, (cx.instantiate pattern).run ⟨later, next⟩ = .ok built ⟨later, next⟩ ∧
      ((∃ isInterface, built = insn.withInterface isInterface) ↔
        pattern.RegainsName cx.classes insn) := by
  have closed := Pattern.hasWildcard_of_checkAddable addable
  have done {pattern : Pattern} {insn : Insn}
      (ran : (cx.instantiate pattern).run ⟨later, next⟩ = .ok insn ⟨later, next⟩)
      (noCall : ∀ b, insn.withInterface b = insn) (regains : pattern.RegainsName cx.classes insn) :
      ∃ built, (cx.instantiate pattern).run ⟨later, next⟩ = .ok built ⟨later, next⟩ ∧
        ((∃ isInterface, built = insn.withInterface isInterface) ↔
          pattern.RegainsName cx.classes insn) :=
    ⟨insn, ran, fun _ => regains, fun _ => ⟨false, (noCall false).symm⟩⟩
  unfold matchInsn at matched
  split at matched
  case h_1 p l =>
    refine done ?_ (fun _ => rfl) trivial
    have refers := refersTo_of_matchLabel (beq_eq_false_iff_ne.1 closed) matched
    rw [instantiate, run_bind_of_ok (run_labelFor_of_refersTo refers)]
    rfl
  case h_2 expected op | h_3 op =>
    refine done ?_ (fun _ => rfl) trivial
    obtain rfl := eq_of_beq (Prod.mk.inj matched).1
    rfl
  case h_4 v value | h_5 v value | h_6 v value | h_7 v value | h_8 v value =>
    refine done ?_ (fun _ => rfl) trivial
    obtain rfl := Operand.eq_is_of_accepts closed (Prod.mk.inj matched).1
    rfl
  case h_9 t name =>
    refine done ?_ (fun _ => rfl) trivial
    obtain ⟨type, rfl, closed⟩ := Operand.exists_closed closed
    obtain ⟨real, means, rfl⟩ := mapType_of_matchClassOperand closed matched
    rw [instantiate, run_bind_of_ok run_value_is, run_bind_of_ok (run_classOperandFor means)]
    rfl
  case h_10 expected i op index =>
    refine done ?_ (fun _ => rfl) trivial
    obtain ⟨isOp, accepts⟩ := Bool.and_eq_true_iff.1 (Prod.mk.inj matched).1
    obtain rfl := eq_of_beq isOp
    obtain rfl := Operand.eq_is_of_accepts closed accepts
    rfl
  case h_11 i d index delta =>
    refine done ?_ (fun _ => rfl) trivial
    obtain ⟨accepts, accepts'⟩ := Bool.and_eq_true_iff.1 (Prod.mk.inj matched).1
    obtain ⟨closed, closed'⟩ := Bool.or_eq_false_iff.1 closed
    obtain rfl := Operand.eq_is_of_accepts closed accepts
    obtain rfl := Operand.eq_is_of_accepts closed' accepts'
    rfl
  case h_12 expected p op target =>
    refine done ?_ (fun _ => rfl) trivial
    obtain ⟨isOp, inner⟩ := of_onlyIf matched
    obtain rfl := eq_of_beq isOp
    have refers := refersTo_of_matchLabel (beq_eq_false_iff_ne.1 closed) inner
    rw [instantiate, run_bind_of_ok (run_labelFor_of_refersTo refers)]
    rfl
  case h_13 => exact done (instantiate_tableSwitch closed listsAll matched) (fun _ => rfl) trivial
  case h_14 => exact done (instantiate_lookupSwitch closed listsAll matched) (fun _ => rfl) trivial
  case h_15 expected o n t d op owner name desc =>
    obtain ⟨given, ran, same⟩ := instantiate_field closed read matched
    exact ⟨_, ran, Iff.trans (by simp [Insn.withInterface]) same⟩
  case h_16 expected o n t d op owner name desc isInterface =>
    obtain ⟨given, onInterface, ran, same⟩ := instantiate_invoke closed read matched
    exact ⟨_, ran, Iff.trans (by simp [Insn.withInterface]) same⟩
  case h_17 expected t op className =>
    refine done ?_ (fun _ => rfl) trivial
    obtain ⟨isOp, inner⟩ := of_onlyIf matched
    obtain rfl := eq_of_beq isOp
    obtain ⟨type, rfl, closed⟩ := Operand.exists_closed closed
    obtain ⟨real, means, rfl⟩ := mapType_of_matchClassOperand closed inner
    rw [instantiate, run_bind_of_ok run_value_is, run_bind_of_ok (run_classOperandFor means)]
    rfl
  case h_18 t op className =>
    obtain ⟨element, rfl, closed⟩ := Operand.exists_closed closed
    exact done (instantiate_newObjectArray closed matched) (fun _ => rfl) trivial
  case h_19 t code =>
    refine done ?_ (fun _ => rfl) trivial
    obtain ⟨element, rfl, -⟩ := Operand.exists_closed closed
    have isCode : element.arrayCode? = some code := eq_of_beq (Prod.mk.inj matched).1
    rw [instantiate, run_bind_of_ok run_value_is]
    simp only [isCode]
    rfl
  case h_20 t n desc dims =>
    obtain ⟨typeClosed, countClosed⟩ := Bool.or_eq_false_iff.1 closed
    obtain ⟨type, rfl, noWildcard⟩ := Operand.exists_closed typeClosed
    exact done (instantiate_newArrayMulti noWildcard countClosed arrays matched)
      (fun _ => rfl) trivial
  case h_21 => cases matched

end BodyContext

def staticHelper : ClassFile :=
  ⟨⟨"p/P", some objectClass, [], 33, 50, 0, none⟩, [],
    [⟨"a", "()V", 9, [], some { insns := [.simple Opcode.voidReturn] }⟩]⟩

def helperHeir : ClassFile := ⟨⟨"p/C", some "p/P", [], 33, 50, 0, none⟩, [], []⟩

/-- The two classes and the stub for the class that both descend from. The subclass does not own the
static method. -/
def helperFamily : ClassSet :=
  { classes := #[
      { staticHelper.header with methods := [⟨0⟩], view := [⟨0⟩], modified := false },
      { helperHeir.header with modified := false },
      .stub objectClass]
    methods := staticHelper.methods.toArray.map fun m =>
      { m with declaredBy := ⟨0⟩, owners := [⟨0⟩] } }

/-- A call of a static method through a class, with a weak name for the method. -/
def callsStatic (owner : String) : Pattern :=
  .invoke Opcode.invokestatic (.ofText owner) (.ofText "~x") ⟨[], .void⟩ "()V"

/-- The weak name has been bound to the static method. -/
def helperNamed : Scope := { methods := .insert .empty ⟨0⟩ ⟨"~x", "()V"⟩ }

namespace BodyContext

/-- Through the class that declares the method, the call that has matched is built again. -/
theorem instantiate_of_matchInsn_declaring :
    let cx : BodyContext := ⟨helperFamily, ⟨0⟩, ⟨[], .void⟩⟩
    let call : Insn := .invoke Opcode.invokestatic "p/P" "a" "()V" false
    (callsStatic "p/P").checkAddable = .ok () ∧
      (cx.matchInsn (callsStatic "p/P") call).run {} = (true, helperNamed) ∧
      ∃ built, (cx.instantiate (callsStatic "p/P")).run ⟨helperNamed, 3⟩ =
        .ok built ⟨helperNamed, 3⟩ ∧ ∃ isInterface, built = call.withInterface isInterface := by
  intro cx call
  have addable : (callsStatic "p/P").checkAddable = .ok () := by decide
  have matched : (cx.matchInsn (callsStatic "p/P") call).run {} = (true, helperNamed) := by
    change (_ : Bool × Scope) = _
    decide +kernel
  obtain ⟨built, ran, same⟩ :=
    instantiate_of_matchInsn 3 addable ⟨"p/P", rfl⟩ trivial trivial matched
  refine ⟨addable, matched, built, ran, same.2 fun _ _ cls id meant => ?_⟩
  have itself : helperFamily.meantMethod? "p/P" "a" "()V" = some (⟨0⟩, ⟨0⟩) := by decide +kernel
  cases itself.symm.trans meant
  decide +kernel

/-- Inheritance among the two classes has been worked out. -/
theorem prepare_helperFamily :
    ((ClassSet.insert? {} staticHelper none false).bind
      fun set => set.insert? helperHeir none false).map
        (fun set => ClassSet.prepare.run set) = some (.ok () helperFamily) := by
  have inserted : ((ClassSet.insert? {} staticHelper none false).bind
    fun set => set.insert? helperHeir none false) =
    some { helperFamily with classes := helperFamily.classes.pop } := by decide +kernel
  have before : { helperFamily with classes := helperFamily.classes.pop : ClassSet }.candidates =
      [⟨1⟩, ⟨0⟩] :=
    ClassSet.candidates_of_sorted (by decide +kernel) (by decide +kernel)
  have shared : ClassSet.shareInherited.run { helperFamily with
      classes := helperFamily.classes.pop } =
      .ok () { helperFamily with classes := helperFamily.classes.pop } := by
    rw [ClassSet.shareInherited_of_candidates before]
    decide +kernel
  rw [inserted, Option.map_some, ClassSet.prepare_of_candidates shared before]
  decide +kernel

/-- Through a subclass, a call that has matched is built with the text of the weak name as the name
of the method. -/
theorem instantiate_forgetsName :
    (∃ set, ((ClassSet.insert? {} staticHelper none false).bind
      fun set => set.insert? helperHeir none false) =
        some set ∧ ClassSet.prepare.run set = .ok () helperFamily) ∧
      let cx : BodyContext := ⟨helperFamily, ⟨0⟩, ⟨[], .void⟩⟩
      (callsStatic "p/C").checkAddable = .ok () ∧
        (cx.matchInsn (callsStatic "p/C") (.invoke Opcode.invokestatic "p/C" "a" "()V" false)).run
          {} =
          (true, helperNamed) ∧
        (cx.instantiate (callsStatic "p/C")).run ⟨helperNamed, 3⟩ =
          .ok (.invoke Opcode.invokestatic "p/C" "x" "()V" false) ⟨helperNamed, 3⟩ := by
  refine ⟨Option.map_eq_some_iff.1 prepare_helperFamily, by decide, ?_, by decide +kernel⟩
  change (_ : Bool × Scope) = _
  decide +kernel

end BodyContext

end JvmPatch
