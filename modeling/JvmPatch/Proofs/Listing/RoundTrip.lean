import JvmPatch.Proofs.Apply.Consistency
import JvmPatch.Proofs.Apply.Frame
import JvmPatch.Proofs.Apply.MatchOnly
import JvmPatch.Proofs.Apply.Provision
import JvmPatch.Proofs.Listing.Class

/-! A class set is left as it is by the script that lists one of its classes, if the views show the
methods that the listing shows in the form in which the class declares them. -/

set_option autoImplicit false

namespace JvmPatch

open ScopeM

/-! ### Types that are spelled out -/

namespace ClassSet

variable (set : ClassSet)

theorem run_checkClassName_spelled {pattern : String} (strong : isWeakName pattern = false)
    (one : pattern ≠ "*") (name : String) (scope : Scope) :
    (set.checkClassName pattern name).run scope =
      (if pattern = name then .unchanged else .rejected, scope) := by
  have noAny : isAnyName pattern = false := by
    rw [isAnyName, Bool.or_eq_false_iff]
    refine ⟨by simpa using one, ?_⟩
    by_contra any
    obtain rfl : pattern = "~*" := by simpa using any
    cases strong
  rw [run_checkClassName, noAny, strong]
  rfl

theorem run_checkType_spelled {t : TypeDesc} (strong : t.IsStrong) (one : "*" ∉ t.classNames)
    (u : TypeDesc) (scope : Scope) :
    (set.checkType t u).run scope = (if t = u then .unchanged else .rejected, scope) := by
  obtain ⟨dims, base⟩ := t
  obtain ⟨dims', base'⟩ := u
  unfold checkType
  by_cases same : dims = dims'
  · subst same
    rw [if_neg (not_not.2 rfl)]
    split
    · rename_i expected name isExpected isName
      obtain rfl : base = .object expected := isExpected
      obtain rfl : base' = .object name := isName
      rw [set.run_checkClassName_spelled (strong expected (by simp [TypeDesc.classNames]))
        (fun isStar => one (by simp [TypeDesc.classNames, isStar]))]
      simp
    · change (if base = base' then TypeCheck.unchanged else .rejected, scope) = _
      simp
  · rw [if_pos same, if_neg fun equal => same (congrArg TypeDesc.dims equal)]
    rfl

theorem checkParams_spelled {ts : List TypeDesc} (strong : ∀ t ∈ ts, t.IsStrong)
    (one : ∀ t ∈ ts, "*" ∉ t.classNames) (us : List TypeDesc) (count : ts.length = us.length)
    (soFar : TypeCheck) (scope : Scope) :
    match (set.checkParams ts us soFar).run scope with
    | .ok _ later => later = scope ∧ ts = us
    | .error _ later => later = scope ∧ ts ≠ us := by
  induction ts generalizing us soFar with
  | nil =>
    obtain rfl := List.length_eq_zero_iff.1 count.symm
    exact ⟨rfl, rfl⟩
  | cons t ts ih =>
    cases us with
    | nil => cases count
    | cons u us =>
      rw [run_checkParams_cons, set.run_checkType_spelled (strong t (.head _)) (one t (.head _))]
      by_cases same : t = u
      · subst same
        have rest := ih (fun v member => strong v (.tail _ member))
          (fun v member => one v (.tail _ member)) us
          (Nat.succ.inj count) (soFar.and .unchanged)
        simpa [TypeCheck.accepted] using rest
      · simp [same, TypeCheck.accepted]

/-- A method type that is spelled out agrees with itself only, and comparing it binds nothing. -/
theorem checkMethodTypes_spelled {m : MethodDesc} (strong : m.IsStrong) (one : "*" ∉ m.classNames)
    (n : MethodDesc) (scope : Scope) :
    match (set.checkMethodTypes m n).run scope with
    | .ok _ later => later = scope ∧ m = n
    | .error _ later => later = scope ∧ m ≠ n := by
  obtain ⟨params, result⟩ := m
  obtain ⟨params', result'⟩ := n
  have inParams {t : TypeDesc} (member : t ∈ params) {name : String} (named : name ∈ t.classNames) :
      name ∈ (MethodDesc.mk params result).classNames :=
    List.mem_append_left _ (List.mem_flatMap.2 ⟨t, member, named⟩)
  have inResult {t : TypeDesc} (member : t ∈ [result]) {name : String}
    (named : name ∈ t.classNames) :
      name ∈ (MethodDesc.mk params result).classNames := by
    obtain rfl := List.mem_singleton.1 member
    exact List.mem_append_right _ named
  unfold checkMethodTypes
  by_cases count : params.length = params'.length
  · rw [if_neg (not_not.2 count), EStateM.run_bind]
    have first := set.checkParams_spelled
      (fun t member name named => strong name (inParams member named))
      (fun t member named => one (inParams member named)) params' count .unchanged scope
    dsimp only
    cases ran : (set.checkParams params params' .unchanged).run scope with
    | ok check later =>
      rw [ran] at first
      obtain ⟨rfl, rfl⟩ := first
      have second := set.checkParams_spelled
        (fun t member name named => strong name (inResult member named))
        (fun t member named => one (inResult member named)) [result'] rfl check later
      simpa using second
    | error e later =>
      rw [ran] at first
      exact ⟨first.1, fun same => first.2 (congrArg MethodDesc.params same)⟩
  · rw [if_pos count]
    exact ⟨rfl, fun same => count (congrArg (fun d => d.params.length) same)⟩

end ClassSet

/-! ### Checks of what is listed -/

/-- A method has the name, the descriptor and the flags of a block. -/
structure MethodBlock.Fits (block : MethodBlock) (m : MethodDecl) : Prop where
  name : m.name = block.ident.name
  desc : m.desc = block.desc
  isStatic : block.isStatic = m.access.hasAny Access.isStatic
  isPrivate : block.isPrivate = m.access.hasAny Access.isPrivate
  isProtected : block.isProtected = m.access.hasAny Access.isProtected

theorem MethodDecl.fits_of_shownBy {m : MethodDecl} {block : MethodBlock}
    (shown : m.ShownBy block) : block.Fits m := by
  obtain ⟨type, code, insns, n, -, rfl, -⟩ := shown
  exact ⟨rfl, rfl, rfl, rfl, rfl⟩

theorem MethodDecl.mode_of_shownBy {m : MethodDecl} {block : MethodBlock}
    (shown : m.ShownBy block) :
    block.mode = .keep := by
  obtain ⟨type, code, insns, n, -, rfl, -⟩ := shown
  rfl

theorem IsPlainName.isStrong {name : String} (plain : IsPlainName name) :
    (Ident.mk name false).isStrong = true := by
  simp [Ident.isStrong, Ident.isWildcard, plain.one]

theorem CheckM.run_require_bind {β : Type} (condition : Bool) (reason : Reason)
    (next : Unit → CheckM β) (scope : Scope) :
    (CheckM.require condition reason >>= next).run scope =
      if condition then (next ()).run scope else .error reason scope := by
  cases condition <;> rfl

theorem CheckM.run_requireM (test : ScopeM Bool) (reason : Reason) (scope : Scope) :
    (CheckM.requireM test reason).run scope =
      if (test.run scope).1 then .ok () (test.run scope).2
        else .error reason (test.run scope).2 := by
  change (CheckM.require (test.run scope).1 reason).run (test.run scope).2 = _
  cases (test.run scope).1 <;> rfl

namespace ClassSet

variable (set : ClassSet)

/-- The head of a method that is spelled out is accepted where it fits, and binds nothing. -/
theorem checkMethodHead_spelled {block : MethodBlock} {decl : MethodDecl} {code : Code}
    (plain : decl.IsPlain block.type code) (ident : block.ident = ⟨decl.name, false⟩)
    (desc : block.desc = decl.desc) (m : MethodEntry) (scope : Scope) :
    match (set.checkMethodHead block m).run scope with
    | .ok type later => later = scope ∧ type = block.type ∧ block.Fits m.toMethodDecl
    | .error _ later => later = scope ∧ ¬block.Fits m.toMethodDecl := by
  have strong : block.ident.isStrong = true := ident ▸ plain.name.isStrong
  unfold checkMethodHead
  rw [checkName, strong, CheckM.run_require_bind, Bool.not_true, Bool.false_or]
  by_cases name : block.ident.name = m.name
  · rw [if_pos (beq_iff_eq.2 name)]
    cases parsed : MethodDesc.parse m.desc with
    | error e =>
      refine ⟨rfl, fun fits => ?_⟩
      rw [fits.desc, desc, plain.parses] at parsed
      cases parsed
    | ok type =>
      have compared := set.checkMethodTypes_spelled plain.strong plain.one type scope
      rw [CheckM.orReason, pure_bind, EStateM.run_bind, EStateM.run_get]
      dsimp only
      cases ran : (set.checkMethodTypes block.type type).run scope with
      | error e later =>
        rw [ran] at compared
        obtain ⟨rfl, different⟩ := compared
        refine ⟨rfl, fun fits => different ?_⟩
        rw [fits.desc, desc, plain.parses] at parsed
        exact Except.ok.inj parsed
      | ok check later =>
        rw [ran] at compared
        obtain ⟨rfl, rfl⟩ := compared
        have sameDesc : m.desc = block.desc := by
          rw [desc, ← MethodDesc.text_of_parse parsed, MethodDesc.text_of_parse plain.parses]
        dsimp only
        rw [EStateM.run_bind, run_set]
        dsimp only
        rw [CheckM.run_require_bind, CheckM.run_require_bind, CheckM.run_require_bind]
        by_cases static : block.isStatic = m.isStatic
        · rw [if_pos (beq_iff_eq.2 static)]
          by_cases priv : block.isPrivate = m.access.hasAny Access.isPrivate
          · rw [if_pos (beq_iff_eq.2 priv)]
            by_cases prot : block.isProtected = m.access.hasAny Access.isProtected
            · rw [if_pos (beq_iff_eq.2 prot)]
              exact ⟨rfl, rfl, name.symm, sameDesc, static, priv, prot⟩
            · rw [if_neg (by simpa using prot)]
              exact ⟨rfl, fun fits => prot fits.isProtected⟩
          · rw [if_neg (by simpa using priv)]
            exact ⟨rfl, fun fits => priv fits.isPrivate⟩
        · rw [if_neg (by simpa using static)]
          exact ⟨rfl, fun fits => static fits.isStatic⟩
  · rw [if_neg (by simpa using name)]
    exact ⟨rfl, fun fits => name fits.name.symm⟩

end ClassSet

/-- Nothing but labels has been bound, and in the methods that a listing shows their names have the
meanings that they have in the listing. -/
structure Scope.Lists (set : ClassSet) (id : ClassId) (scope : Scope) : Prop where
  same : scope = { labels := scope.labels, bodies := scope.bodies }
  follows : ∀ m ∈ set.listedMethods id, ∀ code, (set.methodAt m).code = some code →
    scope.FollowsNames (.ofCode code) m

namespace Scope.Lists

variable {set : ClassSet} {id : ClassId} {scope later : Scope} {body : MethodId}

theorem empty (set : ClassSet) (id : ClassId) : Scope.Lists set id {} :=
  ⟨rfl, fun _ _ _ _ _ member => nomatch member⟩

theorem recordMatch (lists : scope.Lists set id) {code : Code}
    (isCode : (set.methodAt body).code = some code)
    (follows : later.FollowsNames (.ofCode code) body) (binds : scope.BindsLabels body later)
    (places : MethodMatch) :
    (later.recordMatch body places).Lists set id := by
  constructor
  · rw [Scope.recordMatch, binds.same, lists.same]
  · intro m listed code' isCode' e member inBody
    by_cases same : m = body
    · subst same
      obtain rfl := Option.some.inj (isCode.symm.trans isCode')
      exact follows e member inBody
    · exact lists.follows m listed code' isCode' e (binds.others e member (inBody ▸ same)) inBody

end Scope.Lists

namespace ClassSet

variable {set : ClassSet} {id : ClassId}

/-- The classes of a class file have no two methods with one name and descriptor, and methods have
at most one flag for visibility. -/
structure IsRegular (set : ClassSet) (id : ClassId) : Prop where
  different : ((set.classAt id).methods.map set.signature).Nodup
  oneVisibility : ∀ v ∈ set.methodCandidates id, (set.methodAt v).access.hasSeveral = false

/-- In the methods that a listing shows, the labels that it does not show keep away from those that
it shows. -/
def LabelsApart (set : ClassSet) (id : ClassId) : Prop :=
  ∀ m ∈ set.listedMethods id, ∀ code, (set.methodAt m).code = some code →
    (LabelNames.ofCode code).Apart code.insns

theorem mem_listedMethods {m : MethodId} : m ∈ set.listedMethods id ↔
    m ∈ (set.classAt id).methods ∧ (set.methodAt m).hidden = false ∧
      (set.methodAt m).code.isSome = true := by
  simp [listedMethods]

/-- The body behind a method that fits the block for a listed method is that of the listed
method. -/
theorem bodyOf_of_fits (different : ((set.classAt id).methods.map set.signature).Nodup)
    {m v : MethodId} {block : MethodBlock} (listed : m ∈ set.listedMethods id)
    (shown : (set.methodAt m).toMethodDecl.ShownBy block)
    (fits : block.Fits (set.methodAt v).toMethodDecl) : set.bodyOf id v = some m := by
  have own := MethodDecl.fits_of_shownBy shown
  have declared := (mem_listedMethods.1 listed).1
  have declares : set.Declares id (set.methodAt v).name (set.methodAt v).desc :=
    ⟨m, declared, own.name.trans fits.name.symm, own.desc.trans fits.desc.symm⟩
  obtain ⟨d, member, body, name, desc⟩ := bodyOf_of_declares declares
  have same : set.signature d = set.signature m :=
    Prod.ext (name.trans (fits.name.trans own.name.symm))
      (desc.trans (fits.desc.trans own.desc.symm))
  rwa [List.inj_on_of_nodup_map different member declared same] at body

theorem checkMethod_failsOnly (different : ((set.classAt id).methods.map set.signature).Nodup)
    (apart : set.LabelsApart id) {m : MethodId} {block : MethodBlock}
    (listed : m ∈ set.listedMethods id) (shown : (set.methodAt m).toMethodDecl.ShownBy block)
    (v : MethodId) :
    FailsOnly (Scope.Lists set id) (fun _ => ¬block.Fits (set.methodAt v).toMethodDecl)
      (set.checkMethod block id v) := by
  intro scope lists
  have shown' := shown
  obtain ⟨type, code, insns, n, plain, isBlock, isShown⟩ := shown'
  have isType : block.type = type := isBlock ▸ rfl
  have isLines : block.insns = insns := isBlock ▸ rfl
  have plain' : (set.methodAt m).toMethodDecl.IsPlain block.type code := isType ▸ plain
  have head := set.checkMethodHead_spelled plain' (isBlock ▸ rfl) (isBlock ▸ rfl)
    (set.methodAt v) scope
  unfold checkMethod
  rw [EStateM.run_bind]
  cases ran : (set.checkMethodHead block (set.methodAt v)).run scope with
  | error reason later =>
    rw [ran] at head
    obtain ⟨rfl, unfit⟩ := head
    exact ⟨lists, unfit⟩
  | ok found later =>
    rw [ran] at head
    obtain ⟨rfl, rfl, fits⟩ := head
    have body := bodyOf_of_fits different listed shown fits
    have isCode : (set.methodAt m).code = some code := plain.body
    dsimp only
    by_cases sought : block.hasSoughtLine = true
    · rw [if_pos sought, body]
      dsimp only
      rw [isCode]
      dsimp only
      obtain ⟨final, places, walked, follows, binds⟩ :=
        @walk_shown ⟨set, m, block.type⟩ (.ofCode code) block.insns code later
          (by rwa [isLines, isType])
          (apart m listed code isCode) (lists.follows m listed code isCode)
      rw [checkBody, EStateM.run_bind, EStateM.run_get]
      dsimp only
      rw [walked]
      exact lists.recordMatch isCode follows binds places
    · rw [if_neg sought]
      exact lists

/-- Fields are compared without binding anything. -/
theorem checkField_keeps {f : FieldDecl} {type : TypeDesc} (plain : f.IsPlain type)
    (n : Nat) (g : FieldId) (scope : Scope) :
    Preserves (· = scope) (set.checkField (f.line type n) g) := by
  have require (condition : Bool) (reason : Reason) :
      Preserves (· = scope) (CheckM.require condition reason) := by
    cases condition
    · exact .throw _ _
    · exact .pure _ _
  refine (require _ _).bind fun _ => Preserves.bind ?_ fun found => Preserves.bind ?_ fun _ =>
    (require _ _).bind fun _ => (require _ _).bind fun _ => ?_
  · cases TypeDesc.parse (set.fieldAt g).desc with
    | ok t => exact .pure _ _
    | error e => exact .throw _ _
  · intro s same
    rw [CheckM.run_requireM]
    have kept : ((set.typesAgree (f.line type n).type found).run s).2 = scope :=
      (set.typesAgree_keeps plain.strong found s).trans same
    revert kept
    cases (set.typesAgree (f.line type n).type found).run s with
    | mk accepted later => cases accepted <;> exact id
  · have value : (f.line type n).value = f.value := rfl
    rw [value]
    cases f.value with
    | none => exact .pure _ _
    | some v => exact require _ _

theorem run_checkField_self {f : FieldId} {type : TypeDesc}
    (plain : (set.fieldAt f).IsPlain type) (n : Nat) (scope : Scope) :
    (set.checkField ((set.fieldAt f).line type n) f).run scope = .ok () scope := by
  have agree := set.run_typesAgree_self plain.strong scope
  unfold checkField checkName
  rw [CheckM.run_require_bind, if_pos (by simp [FieldDecl.line]), plain.parses,
    CheckM.orReason, pure_bind, EStateM.run_bind, CheckM.run_requireM]
  simp only [FieldDecl.line, agree, if_true]
  rw [CheckM.run_require_bind, if_pos (beq_self_eq_true _), CheckM.run_require_bind,
    if_pos (beq_self_eq_true _)]
  cases value : (set.fieldAt f).value with
  | none => rfl
  | some v => simp [CheckM.require]

theorem run_checkSuper_self {c : ClassEntry} {name : String} (plain : IsPlainName name)
    (isSuper : c.superName = some name) (scope : Scope) :
    (set.checkSuper c (supertypeLine name)).run scope = .ok ⟨⟩ scope := by
  have notStar : (supertypeLine name).ident.isWildcard = false := by
    simp [supertypeLine, Ident.isWildcard, plain.one]
  unfold checkSuper
  rw [notStar, if_neg Bool.false_ne_true, isSuper]
  dsimp only
  rw [show (supertypeLine name).ident.text = name from rfl, CheckM.run_requireM, run_bind,
    set.run_checkClassName_self plain.strong]
  rfl

theorem run_matchFirst_self {name : String} (plain : IsPlainName name) {names : List String}
    (member : name ∈ names) (scope : Scope) :
    (set.matchFirst name names).run scope = (true, scope) := by
  induction names with
  | nil => cases member
  | cons other names ih =>
    rw [run_matchFirst_cons, set.run_checkClassName_spelled plain.strong plain.one]
    by_cases same : name = other
    · simp [same, TypeCheck.accepted]
    · simpa [same, TypeCheck.accepted] using ih ((List.mem_cons.1 member).resolve_left same)

theorem run_checkInterface_self {c : ClassEntry} {name : String} (plain : IsPlainName name)
    (member : name ∈ c.interfaces) (scope : Scope) :
    (set.checkInterface c (supertypeLine name)).run scope = .ok ⟨⟩ scope := by
  have notStar : (supertypeLine name).ident.isWildcard = false := by
    simp [supertypeLine, Ident.isWildcard, plain.one]
  unfold checkInterface
  rw [notStar, if_neg Bool.false_ne_true, show (supertypeLine name).ident.text = name from rfl,
    CheckM.run_requireM, run_matchFirst_self plain member]
  rfl

theorem run_forM_listed {names : List String} {check : SupertypeLine → CheckM PUnit} {scope : Scope}
    (each : ∀ name ∈ names, (check (supertypeLine name)).run scope = .ok ⟨⟩ scope) :
    (((names.map supertypeLine).filter fun l => l.mode != .add).forM check).run scope =
      .ok ⟨⟩ scope := by
  have kept : (names.map supertypeLine).filter (fun l => l.mode != .add) =
      names.map supertypeLine := by
    refine List.filter_eq_self.2 fun l member => ?_
    obtain ⟨name, -, rfl⟩ := List.mem_map.1 member
    rfl
  rw [kept]
  have idle : ∀ l ∈ names.map supertypeLine, ∀ s, s = scope → ∃ t, (check l).run s = .ok ⟨⟩ t ∧
      t = scope := by
    rintro l member s rfl
    obtain ⟨name, inside, rfl⟩ := List.mem_map.1 member
    exact ⟨s, each name inside, rfl⟩
  obtain ⟨_, ran, rfl⟩ := forM_succeeds idle scope rfl
  exact ran

/-- The head of a listed class is accepted, and binds nothing. -/
theorem run_checkClass_listed {block : ClassBlock} (plain : set.IsPlain id)
    (shown : set.ShownBy id block) (scope : Scope) :
    (set.checkClass block id).run scope = .ok () scope := by
  have supers : ((block.supers.filter fun l => l.mode != .add).forM
      (set.checkSuper (set.classAt id))).run scope =
      .ok ⟨⟩ scope := by
    rw [shown.supers]
    refine run_forM_listed fun name member => ?_
    have isSuper := Option.mem_toList.1 (List.mem_of_mem_filter member)
    exact run_checkSuper_self (plain.superName name isSuper) isSuper scope
  have interfaces : ((block.interfaces.filter fun l => l.mode != .add).forM
      (set.checkInterface (set.classAt id))).run scope = .ok ⟨⟩ scope := by
    rw [shown.interfaces]
    exact run_forM_listed fun name member =>
      run_checkInterface_self (plain.interfaces name member) member scope
  unfold checkClass checkName
  rw [CheckM.run_require_bind, if_pos (by simp [shown.ident]), shown.kind, checkKind, pure_bind,
    EStateM.run_bind, supers]
  exact interfaces

/-! ### Trials -/

/-- A field is assigned to the line that shows it. -/
def FieldShown (set : ClassSet) (line : FieldLine) (assigned : Option FieldId) : Prop :=
  ∃ f type n, (set.fieldAt f).IsPlain type ∧ line = (set.fieldAt f).line type n ∧ assigned = some f

/-- A method that fits is assigned to a block. -/
def MethodShown (set : ClassSet) (id : ClassId) (block : MethodBlock)
    (assigned : Option MethodId) : Prop :=
  ∃ v ∈ set.methodCandidates id, assigned = some v ∧ block.Fits (set.methodAt v).toMethodDecl

/-- What is assigned to a class block that shows a class is what it shows, or what has the same
form. -/
structure Exhibits (set : ClassSet) (id : ClassId) (block : ClassBlock)
    (choice : ClassChoice) : Prop where
  fields : List.Forall₂ set.FieldShown block.fields choice.fields
  methods : List.Forall₂ (set.MethodShown id) block.methods choice.methods

theorem pass_failsOnly {P : Scope → Prop} {F : Prop} {check : CheckM Unit}
    (fails : FailsOnly P (fun _ => F) check) (progress : Nat) (element : String) :
    FailsOnly P (fun _ => F) (VerifyM.pass progress element check) := by
  intro scope holds
  have led := fails scope holds
  rw [VerifyM.pass, EStateM.run_bind, EStateM.run_get]
  dsimp only
  cases ran : check.run scope with
  | ok x later =>
    rw [ran] at led
    exact led
  | error e later =>
    rw [ran] at led
    exact led

theorem ShownBy.fieldLine {block : ClassBlock} (shown : set.ShownBy id block) {l : FieldLine}
    (member : l ∈ block.fields) :
    ∃ f ∈ set.fieldCandidates id, ∃ type n, (set.fieldAt f).IsPlain type ∧
      l = (set.fieldAt f).line type n :=
  exists_mem_of_mem_right shown.fields member

theorem ShownBy.methodBlock {block : ClassBlock} (shown : set.ShownBy id block) {b : MethodBlock}
    (member : b ∈ block.methods) :
    ∃ m ∈ set.listedMethods id, (set.methodAt m).toMethodDecl.ShownBy b :=
  exists_mem_of_mem_right shown.methods member

theorem verify_failsOnly {block : ClassBlock} {choice : ClassChoice} (plain : set.IsPlain id)
    (different : ((set.classAt id).methods.map set.signature).Nodup) (apart : set.LabelsApart id)
    (shown : set.ShownBy id block) (cls : choice.cls = some id)
    (full : set.FullChoice block choice) :
    FailsOnly (Scope.Lists set id) (fun _ => ¬set.Exhibits id block choice)
      (set.verify ⟨[block]⟩ [choice]) := by
  have fields (n : Nat) : FailsOnly (Scope.Lists set id) (fun _ => ¬set.Exhibits id block choice)
      ((block.fields.zip choice.fields).foldlM
        (fun n e => verifyElement e.1.mode (e.1.describe block) .field (set.checkField e.1) e.2 n)
          n) := by
    refine .foldlM (fun n e member => ?_) n
    obtain ⟨l, x⟩ := e
    obtain ⟨f, -, type, k, isPlain, rfl⟩ := shown.fieldLine (List.of_mem_zip member).1
    obtain ⟨g, -, rfl⟩ := (List.forall₂_iff_zip.1 (cls ▸ full.fields)).2 member
    refine pass_failsOnly (fun scope lists => ?_) n _
    by_cases isShown : set.FieldShown ((set.fieldAt f).line type k) (some g)
    · obtain ⟨g, type', k', isPlain', isLine, same⟩ := isShown
      obtain rfl := Option.some.inj same
      dsimp only
      rw [isLine, run_checkField_self isPlain']
      exact lists
    · have kept := set.checkField_keeps isPlain k g scope scope rfl
      dsimp only
      cases ran : (set.checkField ((set.fieldAt f).line type k) g).run scope with
      | ok _ later =>
        rw [ran] at kept
        exact kept ▸ lists
      | error _ later =>
        rw [ran] at kept
        exact ⟨kept ▸ lists, fun exhibits => isShown (List.forall₂_zip exhibits.fields member)⟩
  have methods (n : Nat) : FailsOnly (Scope.Lists set id) (fun _ => ¬set.Exhibits id block choice)
      ((block.methods.zip choice.methods).foldlM
        (fun n e => verifyElement e.1.mode (e.1.describe block) .method (set.checkMethod e.1 id)
          e.2 n) n) := by
    refine .foldlM (fun n e member => ?_) n
    obtain ⟨b, x⟩ := e
    obtain ⟨m, listed, isShown⟩ := shown.methodBlock (List.of_mem_zip member).1
    have mode := MethodDecl.mode_of_shownBy isShown
    have fills := (List.forall₂_iff_zip.1 (cls ▸ full.methods)).2 member
    rw [mode] at fills
    obtain ⟨v, -, rfl⟩ := fills
    dsimp only
    rw [verifyElement, if_neg (by simp [mode])]
    refine pass_failsOnly ((checkMethod_failsOnly different apart listed isShown v).mono
      fun _ unfit exhibits => ?_) n _
    obtain ⟨v', -, same, fits⟩ := List.forall₂_zip exhibits.methods member
    exact unfit (Option.some.inj same ▸ fits)
  unfold verify
  refine FailsOnly.bind (FailsOnly.foldlM (fun n e member => ?_) 0) fun _ => .pure _
  obtain rfl := List.mem_singleton.1 member
  rw [verifyClass, shown.mode, if_neg (by decide), cls]
  refine (pass_failsOnly (fun scope lists => ?_) n block.describe).bind fun n =>
    (fields n).bind methods
  rw [run_checkClass_listed plain shown]
  exact lists

theorem claim_idle {α : Type} {scope : Scope} {mode : Mode} {element : String} {kind : ElementKind}
    {ident : Ident} {bind : α → Scope → Option Scope} (x : α)
    (unbound : ident.isBindable = false) (n : Nat) :
    FailsOnly (· = scope) (fun _ => False) (claim mode element kind ident bind (some x) n) := by
  unfold claim
  split
  · exact .pure n
  · simp only [unbound, Bool.false_eq_true, if_false]
    exact .pure (n + 1)

/-- Nothing in a listing has to be bound before it is checked. -/
theorem claimAll_idle {scope : Scope} {block : ClassBlock} {choice : ClassChoice}
    (shown : set.ShownBy id block) (cls : choice.cls = some id)
    (full : set.FullChoice block choice) :
    FailsOnly (· = scope) (fun _ => False) (set.claimAll ⟨[block]⟩ [choice]) := by
  refine FailsOnly.foldlM (fun n e member => ?_) 0
  obtain rfl := List.mem_singleton.1 member
  rw [claimClass, shown.mode, if_neg (by decide), cls]
  refine (claim_idle id (by rw [shown.ident]; rfl) n).bind fun n =>
    FailsOnly.bind (.foldlM (fun n e member => ?_) n)
    fun n => .foldlM (fun n e member => ?_) n
  · obtain ⟨f, -, type, k, -, isLine⟩ := shown.fieldLine (List.of_mem_zip member).1
    have fills := (List.forall₂_iff_zip.1 (cls ▸ full.fields)).2 member
    rw [isLine] at fills
    obtain ⟨g, -, assigned⟩ := fills
    rw [assigned]
    exact claim_idle g (by rw [isLine]; rfl) n
  · obtain ⟨m, -, _, _, _, _, -, isBlock, -⟩ := shown.methodBlock (List.of_mem_zip member).1
    have fills := (List.forall₂_iff_zip.1 (cls ▸ full.methods)).2 member
    rw [isBlock] at fills
    obtain ⟨v, -, assigned⟩ := fills
    rw [assigned]
    exact claim_idle v (by rw [isBlock]; rfl) n

theorem fits_of_checkMethod {m v : MethodId} {block : MethodBlock}
    (shown : (set.methodAt m).toMethodDecl.ShownBy block) {owner : ClassId} {scope later : Scope}
    (h : (set.checkMethod block owner v).run scope = .ok () later) :
    block.Fits (set.methodAt v).toMethodDecl := by
  obtain ⟨type, code, insns, n, plain, isBlock, -⟩ := shown
  have isType : block.type = type := isBlock ▸ rfl
  have plain' : (set.methodAt m).toMethodDecl.IsPlain block.type code := isType ▸ plain
  have head := set.checkMethodHead_spelled plain' (isBlock ▸ rfl) (isBlock ▸ rfl)
    (set.methodAt v) scope
  obtain ⟨_, _, ran, -⟩ := run_bind_ok h
  rw [ran] at head
  exact head.2.2

/-- For every method that the listing of a class shows, the class has one in its view with the same
signature and the flags that the listing shows. -/
def ShowsListed (set : ClassSet) (id : ClassId) : Prop :=
  ∀ m ∈ set.listedMethods id, ∃ v ∈ set.methodCandidates id, set.signature v = set.signature m ∧
    ∀ flag ∈ [Access.isStatic, Access.isPrivate, Access.isProtected],
      (set.methodAt v).access.hasAny flag = (set.methodAt m).access.hasAny flag

/-- A method fits the block for another exactly if it has the same form. -/
theorem fits_iff {m v : MethodId} {block : MethodBlock}
    (shown : (set.methodAt m).toMethodDecl.ShownBy block) :
    block.Fits (set.methodAt v).toMethodDecl ↔ set.signature v = set.signature m ∧
      ∀ flag ∈ [Access.isStatic, Access.isPrivate, Access.isProtected],
        (set.methodAt v).access.hasAny flag = (set.methodAt m).access.hasAny flag := by
  have own := MethodDecl.fits_of_shownBy shown
  simp only [signature, Prod.mk.injEq, List.forall_mem_cons, List.not_mem_nil, false_imp_iff,
    implies_true, and_true]
  constructor
  · rintro ⟨name, desc, static, priv, prot⟩
    exact ⟨⟨name.trans own.name.symm, desc.trans own.desc.symm⟩, static.symm.trans own.isStatic,
      priv.symm.trans own.isPrivate, prot.symm.trans own.isProtected⟩
  · rintro ⟨⟨name, desc⟩, static, priv, prot⟩
    exact ⟨name.trans own.name, desc.trans own.desc, own.isStatic.trans static.symm,
      own.isPrivate.trans priv.symm, own.isProtected.trans prot.symm⟩

/-- A listing is accepted if the view of its class shows what it lists. -/
theorem exists_resolve_listed {block : ClassBlock} (visible : id ∈ set.candidates)
    (plain : set.IsPlain id) (different : ((set.classAt id).methods.map set.signature).Nodup)
    (apart : set.LabelsApart id) (shown : set.ShownBy id block) (shows : set.ShowsListed id)
    {o : ResolveOptions} (fits : o.Fits) :
    ∃ r, set.resolve ⟨[block]⟩ {} (set.verify ⟨[block]⟩) o = .ok r := by
  have handles : ∀ b ∈ block.methods, ∃ v, set.MethodShown id b v := by
    intro b member
    obtain ⟨m, listed, isShown⟩ := shown.methodBlock member
    obtain ⟨v, candidate, same⟩ := shows m listed
    exact ⟨some v, v, candidate, rfl, (fits_iff isShown).2 same⟩
  choose! handle isHandle using handles
  let choice : ClassChoice := ⟨some id, (set.fieldCandidates id).map some, block.methods.map handle⟩
  have exhibits : set.Exhibits id block choice := by
    refine ⟨List.forall₂_map_right_iff.2 (shown.fields.flip.imp ?_), ?_⟩
    · rintro l f ⟨type, n, isPlain, isLine⟩
      exact ⟨f, type, n, isPlain, isLine, rfl⟩
    · exact List.forall₂_map_right_iff.2 (List.forall₂_same.2 isHandle)
  have full : set.FullChoice block choice := by
    constructor
    · rw [shown.mode]
      exact ⟨id, visible, rfl⟩
    · refine List.forall₂_iff_zip.2 ⟨exhibits.fields.length_eq, fun {l x} member => ?_⟩
      obtain ⟨f, -, type, n, -, isLine⟩ := shown.fieldLine (List.of_mem_zip member).1
      rw [isLine]
      obtain ⟨g, candidate, rfl⟩ := List.mem_map.1 (List.of_mem_zip member).2
      exact ⟨g, candidate, rfl⟩
    · refine List.forall₂_iff_zip.2 ⟨exhibits.methods.length_eq, fun {b x} member => ?_⟩
      obtain ⟨m, -, _, _, _, _, -, isBlock, -⟩ := shown.methodBlock (List.of_mem_zip member).1
      rw [isBlock]
      obtain ⟨v, candidate, assigned, -⟩ := List.forall₂_zip exhibits.methods member
      exact ⟨v, candidate, assigned⟩
  have idle : FailsOnly (· = ({} : Scope)) (fun _ => False) (set.claimAll ⟨[block]⟩ [choice]) :=
    claimAll_idle shown rfl full
  obtain ⟨n, _, claims, rfl⟩ := idle.succeeds rfl fun _ none => none
  obtain ⟨⟨⟩, final, checks, -⟩ :=
    (verify_failsOnly plain different apart shown rfl full).succeeds (.empty set id)
    fun _ unfit => unfit exhibits
  exact exists_resolve_of_accepts fits (.cons full .nil) ⟨n, {}, claims, checks⟩

/-- What has been accepted for a listing is the class that it lists, and methods of the same form as
those that it lists. -/
structure Recognized (set : ClassSet) (id : ClassId) (block : ClassBlock) (r : Resolution)
    (choice : ClassChoice) :
    Prop where
  only : r.assignment = [choice]
  cls : choice.cls = some id
  full : set.FullChoice block choice
  methods : List.Forall₂ (set.MethodShown id) block.methods choice.methods
  lists : r.scope.Lists set id

/-- A listing that is accepted is recognized as the class that it lists. -/
theorem recognized_of_resolve {block : ClassBlock} {o : ResolveOptions} {r : Resolution}
    (orderly : set.Orderly) (visible : id ∈ set.candidates) (plain : set.IsPlain id)
    (different : ((set.classAt id).methods.map set.signature).Nodup) (apart : set.LabelsApart id)
    (shown : set.ShownBy id block)
    (accepted : set.resolve ⟨[block]⟩ {} (set.verify ⟨[block]⟩) o = .ok r) :
    ∃ choice, set.Recognized id block r choice := by
  have first := firstAccepted_of_resolve accepted
  obtain ⟨scope, a⟩ := r
  obtain ⟨choice, rest, full, others, rfl⟩ := List.forall₂_cons_left_iff.1 first.full
  obtain rfl := List.forall₂_nil_left_iff.1 others
  obtain ⟨n, bound, claims, checks⟩ := first.accepted
  have fills := full.cls
  rw [shown.mode] at fills
  obtain ⟨cls, candidate, chosen⟩ := fills
  obtain rfl : cls = id := by
    obtain ⟨named, -, -⟩ :=
      namedChoice_of_verify checks (block, choice) (.head _) (by rw [shown.mode]; decide)
    obtain ⟨_, same, admits⟩ := named (by rw [shown.mode]; decide)
    obtain rfl := Option.some.inj (chosen.symm.trans same)
    have name : (set.classAt cls).name = block.ident.name :=
      admits (shown.ident ▸ plain.name.isStrong)
    rw [shown.ident] at name
    have found := orderly.found cls ((mem_candidates set cls).1 candidate).1
    rw [name, orderly.found id ((mem_candidates set id).1 visible).1] at found
    exact (Option.some.inj found).symm
  refine ⟨choice, rfl, chosen, full, ?_, ?_⟩
  · refine List.forall₂_iff_zip.2 ⟨full.methods.length_eq, fun {b x} member => ?_⟩
    have fills := (List.forall₂_iff_zip.1 (chosen ▸ full.methods)).2 member
    obtain ⟨m, -, isShown⟩ := shown.methodBlock (List.of_mem_zip member).1
    have mode := MethodDecl.mode_of_shownBy isShown
    rw [mode] at fills
    obtain ⟨v, inView, assigned⟩ := fills
    refine ⟨v, inView, assigned, ?_⟩
    obtain ⟨_, _, steps, -⟩ := run_bind_ok checks
    obtain ⟨_, _, _, _, step⟩ := run_foldlM_ok_of_mem steps (.head _)
    rw [verifyClass, shown.mode, if_neg (by decide), chosen] at step
    obtain ⟨_, _, -, step⟩ := run_bind_ok step
    obtain ⟨_, _, -, step⟩ := run_bind_ok step
    obtain ⟨_, _, _, _, checked⟩ := run_foldlM_ok_of_mem step member
    dsimp only at checked
    rw [assigned, verifyElement, if_neg (by simp [mode])] at checked
    exact fits_of_checkMethod isShown (run_pass_ok checked).2
  · obtain rfl : bound = {} := (claimAll_idle shown chosen full).ok rfl claims
    exact (verify_failsOnly plain different apart shown chosen full).ok (.empty set cls) checks

end ClassSet

/-! ### Applying a listing -/

/-- Lines that are kept go wrong only where they are no longer found. -/
theorem BodyContext.editLines_faults {cx : BodyContext} {insns : List Insn}
    {places : MethodMatch} {index : Nat} {lines : List InsnLine}
    (kept : ∀ l ∈ lines, l.mode = .keep) :
    FailsOnly (fun _ => True) (fun fault => fault.isInconsistent = true)
      (cx.editLines insns places index lines) := by
  induction lines generalizing index with
  | nil => exact .pure _
  | cons l ls ih =>
    rw [editLines_cons]
    refine FailsOnly.bind ?_ fun _ => ih fun l' member => kept l' (.tail _ member)
    have mode := kept l List.mem_cons_self
    unfold editLine
    rw [if_neg (by simp [mode])]
    split
    · unfold regionLine
      cases places.regions.get? index with
      | none => exact .throw rfl
      | some region => exact .ite (.modify fun _ _ => trivial) (.pure _)
    split
    · exact .ite (.modify fun _ _ => trivial) (.pure _)
    · unfold foundLine
      cases places.positions.get? index with
      | none => exact .throw rfl
      | some place => exact .get fun e _ => .ite (.throw rfl) (.ite (.set trivial) (.throw rfl))

theorem Code.ShownBy.memberFits {code : Code} {names : LabelNames} {type : MethodDesc}
    {lines : List InsnLine} (shown : code.ShownBy names type lines) {l : InsnLine}
    (member : l ∈ lines) (set : ClassSet) (scope : Scope) (insn : Insn) :
    set.MemberFits scope l.pattern insn := by
  by_cases isRegion : l.pattern.isTryCatch = true
  · exact ClassSet.memberFits_of_isTryCatch isRegion
  · obtain ⟨shownInsn, -, depicts⟩ := exists_mem_of_mem_right shown.insns
      (List.mem_filter.2 ⟨member, by simpa using isRegion⟩)
    generalize l.pattern = pattern at depicts
    cases depicts with
    | field =>
      cases insn with
      | field => exact fun bindable => nomatch bindable
      | _ => trivial
    | invoke =>
      cases insn with
      | invoke => exact fun bindable => nomatch bindable
      | _ => trivial
    | _ => trivial

namespace ApplyM

variable {s t : ApplyState} {cls : ClassId} {handle body : MethodId} {block : MethodBlock}
  {type : MethodDesc}
  {code : Code}

theorem changeBody_fault {e : ApplyError} (kept : ∀ l ∈ block.insns, l.mode = .keep)
    (isBody : s.classes.bodyOf cls handle = some body)
    (isType : MethodDesc.parse (s.classes.methodAt body).desc = .ok type)
    (isCode : (s.classes.methodAt body).code = some code)
    (h : (changeBody cls handle block).run s = .error e t) :
    e.isInconsistent = true := by
  have required : MethodDesc.require (s.classes.methodAt body).desc = .ok type := by
    rw [MethodDesc.require, isType, mapError_ok]
  have quiet : block.changesBody = false :=
    List.any_eq_false.2 fun l member => by simp [kept l member]
  rcases run_bind_error h with got | ⟨start, u, got, h⟩
  · cases got
  cases got
  dsimp only at h
  rw [isBody] at h
  dsimp only at h
  rw [required] at h
  dsimp only at h
  rw [isCode] at h
  dsimp only at h
  rcases run_bind_error h with failed | ⟨edit, v, -, h⟩
  · obtain ⟨fault, edit, ran, -, same, -⟩ := runEdit_error failed
    exact same.trans ((BodyContext.editLines_faults kept).error trivial ran).2
  · rw [quiet] at h
    cases h

/-- A block that keeps all its lines, which are where they were found, changes nothing. -/
theorem run_applyBody_kept (kept : ∀ l ∈ block.insns, l.mode = .keep)
    (isBody : s.classes.bodyOf cls handle = some body)
    (isType : MethodDesc.parse (s.classes.methodAt body).desc = .ok type)
    (isCode : (s.classes.methodAt body).code = some code)
    (ready : PlacedIn StillMatches s ⟨cls, handle, block, .keep⟩) :
    (applyBody (.matched cls handle block)).run s = .ok () s := by
  have quiet : block.changesBody = false :=
    List.any_eq_false.2 fun l member => by simp [kept l member]
  cases ran : (applyBody (.matched cls handle block)).run s with
  | ok x t =>
    cases bodyEdited_of_ok ran with
    | idle => rfl
    | change changes => simp [quiet] at changes
  | error e t =>
    have consistent := applyBody_error (fun target same => Option.some.inj same ▸ ready) ran
    rw [applyBody] at ran
    split at ran
    · cases ran
    · rw [changeBody_fault kept isBody isType isCode ran] at consistent
      cases consistent

end ApplyM

namespace ClassSet

open ApplyM

variable {set : ClassSet} {id : ClassId}

/-- A target of a listing: a method that is seen through the listed class fits the block for a
method that the class declares. -/
structure Targets (set : ClassSet) (id : ClassId) (m : MethodId) (t : MethodTarget) : Prop where
  cls : t.cls = id
  mode : t.mode = .keep
  shown : (set.methodAt m).toMethodDecl.ShownBy t.block
  handle : t.handle ∈ set.methodCandidates id
  fits : t.block.Fits (set.methodAt t.handle).toMethodDecl

theorem Targets.agrees {m : MethodId} {t : MethodTarget}
    (targets : set.Targets id m t) : t.Agrees set :=
  ⟨targets.fits.isStatic, targets.fits.isPrivate, targets.fits.isProtected⟩

theorem Targets.body? {m : MethodId} {t : MethodTarget} (targets : set.Targets id m t)
    (different : ((set.classAt id).methods.map set.signature).Nodup)
    (listed : m ∈ set.listedMethods id) :
    t.body? set = some m := by
  rw [MethodTarget.body?, targets.cls]
  exact bodyOf_of_fits different listed targets.shown targets.fits

/-- The targets of a listing are for the methods that it lists, in order. -/
theorem Recognized.targets {block : ClassBlock} {r : Resolution} {choice : ClassChoice}
    (shown : set.ShownBy id block) (recognized : set.Recognized id block r choice) :
    List.Forall₂ (set.Targets id) (set.listedMethods id)
      (Script.targets ⟨[block]⟩ r.assignment) := by
  have all : Script.targets ⟨[block]⟩ r.assignment =
      (block.methods.zip choice.methods).flatMap fun e => e.1.target id .keep e.2 := by
    rw [Script.targets, recognized.only, List.zip_cons_cons, List.zip_nil_left, List.flatMap_cons,
      List.flatMap_nil, List.append_nil, ClassBlock.targets, if_neg (by simp [shown.mode]),
      recognized.cls, shown.mode]
  rw [all]
  have blocks := shown.methods
  have handles := recognized.methods
  generalize set.listedMethods id = ms at blocks
  generalize block.methods = bs at blocks handles
  generalize choice.methods = xs at handles
  induction blocks generalizing xs with
  | nil => exact .nil
  | cons isShown _ ih =>
    cases handles with
    | cons handle handles =>
      obtain ⟨v, candidate, rfl, fits⟩ := handle
      rw [List.zip_cons_cons, List.flatMap_cons, MethodBlock.target,
        if_neg (by simp [MethodDecl.mode_of_shownBy isShown])]
      exact .cons ⟨rfl, rfl, isShown, candidate, fits⟩ (ih _ handles)

theorem ShownBy.onlyMatches {block : ClassBlock} (shown : set.ShownBy id block) :
    Script.OnlyMatches ⟨[block]⟩ := by
  intro b member
  obtain rfl := List.mem_singleton.1 member
  refine ⟨shown.mode, fun l inside => ?_, fun l inside => ?_, fun l inside => ?_,
    fun m inside => ?_⟩
  · rw [shown.supers] at inside
    obtain ⟨_, -, rfl⟩ := List.mem_map.1 inside
    rfl
  · rw [shown.interfaces] at inside
    obtain ⟨_, -, rfl⟩ := List.mem_map.1 inside
    rfl
  · obtain ⟨f, -, type, n, -, rfl⟩ := shown.fieldLine inside
    rfl
  · obtain ⟨d, -, isShown⟩ := shown.methodBlock inside
    refine ⟨MethodDecl.mode_of_shownBy isShown, ?_⟩
    obtain ⟨_, _, _, _, -, rfl, lines⟩ := isShown
    exact lines.kept

theorem rewrite_of_one {t : MethodTarget} (agrees : t.Agrees set)
    (one : (set.methodAt t.handle).access.hasSeveral = false) :
    t.rewrite set = set := by
  rw [MethodTarget.rewrite, accessOver_eq agrees.isStatic agrees.isPrivate agrees.isProtected, one]
  simp

/-- Applying a listing that is recognized changes no class. -/
theorem apply_listed {block : ClassBlock} {o : ResolveOptions} {r : Resolution}
    {choice : ClassChoice} (regular : set.IsRegular id) (shown : set.ShownBy id block)
    (accepted : set.resolve ⟨[block]⟩ {} (set.verify ⟨[block]⟩) o = .ok r)
    (recognized : set.Recognized id block r choice) :
    ∃ applied, set.apply ⟨[block]⟩ r = .ok applied ∧ applied.classes = set := by
  have targets := recognized.targets shown
  have full := (firstAccepted_of_resolve accepted).full
  have target : ∀ t ∈ Script.targets ⟨[block]⟩ r.assignment, ∃ m ∈ set.listedMethods id,
      set.Targets id m t :=
    fun t member => exists_mem_of_mem_right targets member
  have kept : ∀ ts : List MethodTarget, (∀ t ∈ ts, t ∈ Script.targets ⟨[block]⟩ r.assignment) →
      ts.foldl MethodTarget.rewrite set = set := by
    intro ts all
    induction ts with
    | nil => rfl
    | cons t ts ih =>
      obtain ⟨m, -, isTarget⟩ := target t (all t (.head _))
      rw [List.foldl_cons, rewrite_of_one isTarget.agrees (regular.oneVisibility _ isTarget.handle)]
      exact ih fun u member => all u (.tail _ member)
  obtain ⟨applied, ran, idle⟩ :=
    ApplyM.run_declare_of_onlyMatches shown.onlyMatches full ⟨set, r.scope, {}⟩
  rw [rewriting, kept _ fun _ member => member] at ran
  have alone : (Script.targets ⟨[block]⟩ r.assignment).Pairwise fun t u => t.edited = true →
      t.isSought = true → u.isSought = true → t.body? set ≠ u.body? set := by
    have bodies : (Script.targets ⟨[block]⟩ r.assignment).map (MethodTarget.body? set) =
        (set.listedMethods id).map some := by
      rw [← List.forall₂_eq_eq_eq, List.forall₂_map_left_iff, List.forall₂_map_right_iff]
      refine List.Forall₂.flip (List.forall₂_iff_zip.2 ⟨targets.length_eq, fun {m t} member => ?_⟩)
      exact (List.forall₂_zip targets member).body? regular.different (List.of_mem_zip member).1
    have nodup : ((set.listedMethods id).map some).Nodup :=
      ((List.Nodup.of_map _ regular.different).filter _).map (Option.some_injective _)
    rw [← bodies] at nodup
    exact (List.pairwise_map.1 nodup).imp fun different _ _ _ => different
  obtain ⟨knows, inBodies⟩ := found_of_resolve accepted alone
  have reached : Declared set r.scope ⟨set, r.scope, {}⟩ :=
    ⟨knows, (Changes.declare ⟨[block]⟩ r.assignment _).ok ran⟩
  have bodies : ((applied.flatMap Prod.snd).forM applyBody).run ⟨set, r.scope, {}⟩ =
      .ok ⟨⟩ ⟨set, r.scope, {}⟩ := by
    suffices each : ∀ p ∈ applied.flatMap Prod.snd,
        (applyBody p).run ⟨set, r.scope, {}⟩ = .ok ⟨⟩ ⟨set, r.scope, {}⟩ by
      obtain ⟨_, all, rfl⟩ :=
        forM_succeeds (P := (· = (⟨set, r.scope, {}⟩ : ApplyState))) (f := applyBody)
        (fun p member s same => ⟨s, same ▸ each p member, same⟩) _ rfl
      exact all
    intro p member
    obtain ⟨cls, handle, b, rfl, -⟩ := idle p member
    have isPending : ⟨cls, handle, b,
        .keep⟩ ∈ (applied.flatMap Prod.snd).filterMap PendingBody.target? :=
      List.mem_filterMap.2 ⟨_, member, rfl⟩
    rw [(declare_pending full ran).1] at isPending
    obtain ⟨isTarget, edited⟩ := List.mem_filter.1 isPending
    obtain ⟨m, listed, ofMethod⟩ := target _ isTarget
    have isBody := ofMethod.body? regular.different listed
    obtain ⟨type, code, insns, n, isPlain, isBlock, isShown⟩ := ofMethod.shown
    have isLines : b.insns = insns := congrArg MethodBlock.insns isBlock
    refine run_applyBody_kept (isLines ▸ isShown.kept) isBody isPlain.parses isPlain.body ?_
    cases sought : b.hasSoughtLine with
    | false => exact fun _ _ _ _ _ _ => placed_of_onlyAdds (onlyAdds_of_not_sought sought)
    | true =>
      obtain ⟨body, code, type, places, inBody, recorded⟩ := inBodies _ isTarget edited sought
      refine reached.ready inBody recorded (fun _ same => same)
        fun n l place insn isLine _ _ _ _ => ?_
      exact isShown.memberFits (isLines ▸ List.mem_of_getElem? isLine) _ _ insn
  refine ⟨⟨set, r.scope, applied.map Prod.fst, {}⟩, ?_, rfl⟩
  rw [apply, applyAll_eq, EStateM.run_bind, ran]
  dsimp only
  rw [EStateM.run_bind, bodies]
  rfl

/-- A listing is accepted only if the view of its class shows what it lists. -/
theorem showsListed_of_resolve {block : ClassBlock} {o : ResolveOptions} {r : Resolution}
    (orderly : set.Orderly) (visible : id ∈ set.candidates) (plain : set.IsPlain id)
    (different : ((set.classAt id).methods.map set.signature).Nodup) (apart : set.LabelsApart id)
    (shown : set.ShownBy id block)
    (accepted : set.resolve ⟨[block]⟩ {} (set.verify ⟨[block]⟩) o = .ok r) :
    set.ShowsListed id := by
  obtain ⟨choice, recognized⟩ :=
    recognized_of_resolve orderly visible plain different apart shown accepted
  intro m listed
  obtain ⟨t, -, isTarget⟩ := exists_mem_of_mem_right (recognized.targets shown).flip listed
  exact ⟨t.handle, isTarget.handle, (fits_iff isTarget.shown).1 isTarget.fits⟩

/-- The listing of a class is read as a script. If the view of the class shows what the listing
shows, and a list can have room for a batch, the script is accepted, and only then. It is accepted
for the class itself, with no weak name for a class, and applying it changes nothing. -/
theorem listing_roundTrip {files : ClassFile → Prop}
    {scripts : ClassSet → Script → Resolution → Prop} (attained : Attained files scripts set)
    (visible : id ∈ set.candidates) (plain : set.IsPlain id) (regular : set.IsRegular id)
    (apart : set.LabelsApart id) (o : ResolveOptions) :
    ∃ script, Script.parse (set.listing id) = .ok script ∧
      ((∃ r, set.resolve script {} (set.verify script) o = .ok r) ↔ o.Fits ∧ set.ShowsListed id) ∧
      ∀ r, set.resolve script {} (set.verify script) o = .ok r →
        r.assignment.map ClassChoice.cls = [some id] ∧ r.scope.classes = {} ∧
          ∃ applied, set.apply script r = .ok applied ∧ applied.classes = set := by
  obtain ⟨block, parsed, shown⟩ := Script.parse_listing plain
  refine ⟨⟨[block]⟩, parsed,
    ⟨fun ⟨r, accepted⟩ => ⟨(resolve_eq_ok.1 accepted).1, ?_⟩, fun ⟨fits, shows⟩ => ?_⟩,
    fun r accepted => ?_⟩
  · exact showsListed_of_resolve attained.orderly visible plain regular.different apart
      shown accepted
  · exact exists_resolve_listed visible plain regular.different apart shown shows fits
  · obtain ⟨choice, recognized⟩ :=
      recognized_of_resolve attained.orderly visible plain regular.different apart shown accepted
    refine ⟨?_, ?_, apply_listed regular shown accepted recognized⟩
    · rw [recognized.only, List.map_cons, List.map_nil, recognized.cls]
    · rw [recognized.lists.same]

/-- A body that never ends. -/
def endlessCode : Code :=
  { insns := [.label ⟨0⟩, .jump Opcode.goto ⟨0⟩, .simple Opcode.voidReturn], nextLabel := 1 }

/-- A method `run` that never ends, with the given flags. -/
def endless (access : Access) : MethodDecl := ⟨"run", "()V", access, [], some endlessCode⟩

/-- The class `p/P` with a counter and a method `run` that has the given flags, and its subclass
`p/C`, which overrides the method with a public one. The view of `p/P` and the owners of the method
of `p/C` are given. -/
def overridden (access : Access) (shown : MethodId) (owners : List ClassId) : ClassSet where
  classes := #[
    { ClassEntry.fresh "p/P" none 33 with
      fields := [⟨0⟩], methods := [⟨0⟩], view := [shown], modified := false },
    { ClassEntry.fresh "p/C" (some "p/P") 33 with
      methods := [⟨1⟩], view := [⟨1⟩], modified := false }]
  methods := #[{ endless access with declaredBy := ⟨0⟩, owners := [⟨0⟩] },
    { endless 1 with declaredBy := ⟨1⟩, owners := owners }]
  fields := #[
    { name := "count", desc := "I", access := 9, value := some (.int 7), declaredBy := ⟨0⟩,
      owners := [⟨0⟩] }]

/-- The classes when a script sees them. The view of `p/P` shows the method of `p/C`. -/
abbrev preparedRun (access : Access) : ClassSet := overridden access ⟨1⟩ [⟨0⟩, ⟨1⟩]

theorem candidates_overridden {access : Access} {shown : MethodId} {owners : List ClassId} :
    (overridden access shown owners).candidates = [⟨1⟩, ⟨0⟩] :=
  candidates_of_sorted (.swap _ _ _) (show ["p/C", "p/P"].Pairwise (compare · · = .lt) by decide)

theorem attained_preparedRun {access : Access}
    (one : access ∈ [Access.isPublic, Access.isProtected]) :
    Attained (fun _ => True) (fun _ _ _ => True) (preparedRun access) := by
  have inserted : ofFiles [
      ⟨⟨"p/P", none, [], 33, 50, 0, none⟩, [⟨"count", "I", 9, some (.int 7)⟩], [endless access]⟩,
      ⟨⟨"p/C", some "p/P", [], 33, 50, 0, none⟩, [], [endless 1]⟩] =
        overridden access ⟨0⟩ [⟨1⟩] := by
    simp only [List.mem_cons, List.not_mem_nil, or_false] at one
    rcases one with rfl | rfl <;> with_unfolding_all decide
  have shared : shareInherited.run (overridden access ⟨0⟩ [⟨1⟩]) = .ok ⟨⟩ (preparedRun access) := by
    rw [shareInherited_of_candidates candidates_overridden]
    simp only [List.mem_cons, List.not_mem_nil, or_false] at one
    rcases one with rfl | rfl <;> with_unfolding_all decide
  have loaded : loadMentioned.run (preparedRun access) = .ok ⟨⟩ (preparedRun access) := by
    rw [loadMentioned_of_candidates candidates_overridden]
    simp only [List.mem_cons, List.not_mem_nil, or_false] at one
    rcases one with rfl | rfl <;> with_unfolding_all decide
  have start : Attained (fun _ => True) (fun _ _ _ => True) (overridden access ⟨0⟩ [⟨1⟩]) :=
    inserted ▸ ofFiles_rule (.empty []) (fun _ _ _ before => .insert before trivial) _
  have first : Attained (fun _ => True) (fun _ _ _ => True) (preparedRun access) :=
    leftBy_ok shared ▸ .shareInherited start
  exact leftBy_ok loaded ▸ .loadMentioned first

theorem isPlain_preparedRun (access : Access) : (preparedRun access).IsPlain ⟨0⟩ := by
  have name : IsPlainName "p/P" := ⟨by decide, by decide, by decide⟩
  have field : FieldDecl.IsPlain ⟨"count", "I", 9, some (.int 7)⟩ ⟨0, .int⟩ := by
    have strong : TypeDesc.IsStrong ⟨0, .int⟩ := by
      intro name isObject
      cases isObject
    refine ⟨⟨by decide, by decide, by decide⟩, by decide, by decide, strong, by decide, ?_⟩
    rintro v ⟨⟩
    exact ⟨rfl, by decide⟩
  have method : MethodDecl.IsPlain (endless access) ⟨[], .void⟩ endlessCode := by
    have run : IsPlainName "run" := ⟨by decide, by decide, by decide⟩
    have word : Text.IsWord "()V".toList := by decide
    have strong : MethodDesc.IsStrong ⟨[], .void⟩ := by
      intro name member
      cases member
    have parsed : MethodDesc.parse "()V" = .ok ⟨[], .void⟩ := by decide
    refine ⟨run, word, parsed, strong, by decide, rfl, ?_, List.forall_mem_nil _⟩
    simp only [endlessCode, List.forall_mem_cons]
    exact ⟨trivial, rfl, ⟨rfl, fun _ => rfl⟩, List.forall_mem_nil _⟩
  refine ⟨name, fun above isSuper => ?_, List.forall_mem_nil _,
    List.forall_mem_singleton.2 ⟨_, field⟩, List.forall_mem_singleton.2 ⟨_, _, method⟩⟩
  cases isSuper

theorem isRegular_preparedRun (access : Access) : (preparedRun access).IsRegular ⟨0⟩ :=
  ⟨List.nodup_singleton _, List.forall_mem_singleton.2 (by decide : Access.hasSeveral 1 = false)⟩

theorem labelsApart_preparedRun (access : Access) : (preparedRun access).LabelsApart ⟨0⟩ := by
  refine List.forall_mem_singleton.2 ?_
  rintro _ ⟨⟩
  exact ⟨fun _ hidden => absurd hidden (by decide), nofun, nofun, trivial⟩

theorem listing_roundTrip_public : ∃ script r applied,
    Script.parse ((preparedRun Access.isPublic).listing ⟨0⟩) = .ok script ∧
      (preparedRun Access.isPublic).resolve script {}
        ((preparedRun Access.isPublic).verify script) {} = .ok r ∧
      (preparedRun Access.isPublic).apply script r = .ok applied ∧
        applied.classes = preparedRun Access.isPublic := by
  have isOne : Access.isPublic ∈ [Access.isPublic, Access.isProtected] := by decide
  have attained := attained_preparedRun isOne
  obtain ⟨script, parsed, accepts, applies⟩ :=
    listing_roundTrip attained ((mem_candidates _ _).2 (by decide))
    (isPlain_preparedRun _) (isRegular_preparedRun _) (labelsApart_preparedRun _) {}
  obtain ⟨r, accepted⟩ :=
    accepts.2 ⟨by decide, List.forall_mem_singleton.2 ⟨⟨1⟩, .head _, rfl, fun _ _ => rfl⟩⟩
  obtain ⟨-, -, applied, ran, same⟩ := applies r accepted
  exact ⟨script, r, applied, parsed, accepted, ran, same⟩

/-- The listing of the class with a protected method is not accepted, since its view shows the
method of the subclass. -/
theorem listing_protected_unrecognized :
    Attained (fun _ => True) (fun _ _ _ => True) (preparedRun Access.isProtected) ∧
      ⟨0⟩ ∈ (preparedRun Access.isProtected).candidates ∧
        (preparedRun Access.isProtected).IsPlain ⟨0⟩ ∧
      ∃ script, Script.parse ((preparedRun Access.isProtected).listing ⟨0⟩) = .ok script ∧
        ∀ o r, (preparedRun Access.isProtected).resolve script {}
          ((preparedRun Access.isProtected).verify script) o ≠
          .ok r := by
  have isOne : Access.isProtected ∈ [Access.isPublic, Access.isProtected] := by decide
  have attained := attained_preparedRun isOne
  have visible := (mem_candidates (preparedRun Access.isProtected) ⟨0⟩).2 (by decide)
  have plain := isPlain_preparedRun Access.isProtected
  obtain ⟨block, parsed, shown⟩ := Script.parse_listing plain
  refine ⟨attained, visible, plain, ⟨[block]⟩, parsed, fun o r accepted => ?_⟩
  obtain ⟨v, inView, -, flags⟩ :=
    showsListed_of_resolve attained.orderly visible plain (isRegular_preparedRun _).different
    (labelsApart_preparedRun _) shown accepted ⟨0⟩ (.head _)
  obtain rfl := List.mem_singleton.1 inView
  exact absurd (flags Access.isProtected (by decide)) (by decide)

end ClassSet

end JvmPatch
