import JvmPatch.Proofs.Resolve.Completeness
import JvmPatch.Proofs.Resolve.Finding

/-! Scripts whose only weak names are names of classes: if the names can be bound so that some
assignment satisfies the script, then the search finds an assignment, provided that no line has to
choose for a name that no earlier line has settled. -/

set_option autoImplicit false

namespace JvmPatch

open ScopeM

/-- The only weak names of the script are names of classes, and all labels are free. -/
structure Script.BindsOnlyClasses (script : Script) : Prop where
  fields : ∀ block ∈ script.classes, ∀ line ∈ block.fields, line.ident.isBindable = false
  methods : ∀ block ∈ script.classes, ∀ m ∈ block.methods, m.ident.isBindable = false
  insns : ∀ block ∈ script.classes, ∀ m ∈ block.methods, ∀ l ∈ m.insns, l.pattern.BindsOnlyClasses

/-- The test succeeds under the binding. -/
def Scope.Holds (full : Scope) (test : ScopeM Bool) : Prop := (test.run full).1 = true

namespace ClassSet

/-- The class is as the block says, under a binding of the class names. -/
structure ClassHolds (set : ClassSet) (full : Scope) (block : ClassBlock)
    (id : ClassId) : Prop where
  name : block.ident.Admits (set.classAt id).name
  isInterface : block.kind = .interface → (set.classAt id).isInterface = true
  isEnum : block.kind = .enumeration → (set.classAt id).isEnum = true
  supers : ∀ line ∈ block.supers, line.mode ≠ .add → line.ident.isWildcard = false →
    ∃ name, (set.classAt id).superName = some name ∧
      full.Holds (set.namesAgree line.ident.text name)
  interfaces : ∀ line ∈ block.interfaces, line.mode ≠ .add →
    ∃ name ∈ (set.classAt id).interfaces, full.Holds (set.namesAgree line.ident.text name)

/-- The field is as the line says, under a binding of the class names. -/
structure FieldHolds (set : ClassSet) (full : Scope) (line : FieldLine) (id : FieldId) : Prop where
  name : line.ident.Admits (set.fieldAt id).name
  type : ∃ type, TypeDesc.parse (set.fieldAt id).desc = .ok type ∧
    full.Holds (set.typesAgree line.type type)
  isStatic : line.isStatic = (set.fieldAt id).access.hasAny Access.isStatic
  isPrivate : line.isPrivate = (set.fieldAt id).access.hasAny Access.isPrivate
  value : ∀ expected, line.value = some expected → (set.fieldAt id).value = some expected

/-- The header of the method is as the block says, under a binding of the class names. -/
structure HeadHolds (set : ClassSet) (full : Scope) (block : MethodBlock) (m : MethodEntry)
    (type : MethodDesc) : Prop where
  name : block.ident.Admits m.name
  desc : MethodDesc.parse m.desc = .ok type
  types : full.Holds (set.methodTypesAgree block.type type)
  isStatic : block.isStatic = m.isStatic
  isPrivate : block.isPrivate = m.access.hasAny Access.isPrivate
  isProtected : block.isProtected = m.access.hasAny Access.isProtected

/-- The method that is seen through the class is as the block says, and the lines of the block can
be found in its body, under a binding of the class names. -/
def MethodHolds (set : ClassSet) (full : Scope) (block : MethodBlock) (owner : ClassId)
    (id : MethodId) : Prop :=
  ∃ type, set.HeadHolds full block (set.methodAt id) type ∧
    (block.hasSoughtLine = true → ∃ body code, set.bodyOf owner id = some body ∧
      (set.methodAt body).code = some code ∧ BodyHolds ⟨set, body, type⟩ full block.insns code)

/-- What is assigned to a class block and its members is as the block says, and the name of the
block stands for the class. -/
structure ChoiceHolds (set : ClassSet) (full : Scope) (block : ClassBlock) (choice : ClassChoice)
    (id : ClassId) : Prop where
  cls : choice.cls = some id
  named : block.ident.isBindable = true → full.class? block.ident.text = some id
  header : set.ClassHolds full block id
  fields : ∀ e ∈ block.fields.zip choice.fields, e.1.mode ≠ .add →
    ∃ field, e.2 = some field ∧ set.FieldHolds full e.1 field
  methods : ∀ e ∈ block.methods.zip choice.methods, e.1.mode ≠ .add →
    ∃ method, e.2 = some method ∧ set.MethodHolds full e.1 id method

/-- An assignment satisfies a script under a binding of the class names. -/
def Satisfies (set : ClassSet) (full : Scope) (script : Script) (a : Assignment) : Prop :=
  ∀ e ∈ script.classes.zip a, e.1.mode ≠ .add → ∃ id, set.ChoiceHolds full e.1 e.2 id

def headerLooks (set : ClassSet) (block : ClassBlock) (id : ClassId) : List Look :=
  (block.supers.filter fun l => l.mode != .add).map (fun l => ⟨weakNames l.ident.text, False⟩) ++
    (block.interfaces.filter fun l => l.mode != .add).map fun l =>
      ⟨weakNames l.ident.text, set.Ambiguous (set.classAt id).interfaces⟩

/-- The looks at a method: at its header, and at its body if a line of the block has to be found. -/
def methodLooks (set : ClassSet) (block : MethodBlock) (owner : ClassId) (id : MethodId) :
    List Look :=
  ⟨block.type.weakNames, False⟩ ::
    if block.hasSoughtLine then
      ((set.bodyOf owner id).bind fun body => (set.methodAt body).code).elim []
        (bodyLooks set block.insns)
    else []

/-- The looks at what is assigned to a class block and its members, in the order of the checks. -/
def choiceLooks (set : ClassSet) (block : ClassBlock) (choice : ClassChoice) : List Look :=
  if block.mode = .add then []
  else
    choice.cls.elim [] fun id =>
      set.headerLooks block id ++
        ((block.fields.zip choice.fields).flatMap (fun e =>
            if e.1.mode = .add then [] else e.2.elim [] fun _ => [⟨e.1.type.weakNames, False⟩]) ++
          (block.methods.zip choice.methods).flatMap fun e =>
            if e.1.mode = .add then [] else e.2.elim [] (set.methodLooks e.1 id))

/-- The name of a class block is bound before the first check. -/
def claimLooks (block : ClassBlock) : List Look :=
  if block.mode = .add then []
  else if block.ident.isBindable then [⟨[block.ident.text], False⟩] else []

/-- All looks at an assignment, in the order in which names are bound. -/
def looks (set : ClassSet) (script : Script) (a : Assignment) : List Look :=
  (script.classes.zip a).flatMap (fun e => claimLooks e.1) ++
    (script.classes.zip a).flatMap fun e => set.choiceLooks e.1 e.2

end ClassSet

namespace Passes

variable {ε α β : Type} {full : Scope}

/-- One look. -/
theorem look {m : EStateM ε Scope α} {x : α} {names : List String} {ambiguous : Prop}
    (passes : full.Settles names → ∀ scope : Scope, scope.Under full →
      (ambiguous → scope.Settles names) →
        ∃ later, m.run scope = .ok x later ∧ Scope.Reaches full scope later ∧ later.Settles names) :
    Passes full [⟨names, ambiguous⟩] m x := by
  intro total before scope settled under known
  have only : Look.allNames [⟨names, ambiguous⟩] = names := List.append_nil names
  rw [only] at total ⊢
  exact passes total scope under fun holds => known.mono (settled.1 holds)

theorem require {condition : Bool} (holds : condition = true) (reason : Reason) :
    Passes full [] (CheckM.require condition reason) () := by
  rw [CheckM.require, if_pos holds]
  exact .pure full ()

theorem requireM {names : List String} {test : ScopeM Bool}
    (decides : DecidesUnder full names test) (holds : full.Holds test) (reason : Reason) :
    Passes full [⟨names, False⟩] (CheckM.requireM test reason) () := by
  refine .look fun total scope under _ => ?_
  obtain ⟨later, success, result⟩ := decides.settles holds total scope under
  refine ⟨later, ?_, result⟩
  change (do
    EStateM.set (test.run scope).2
    CheckM.require (test.run scope).1 reason : CheckM Unit).run scope = _
  rw [success]
  rfl

theorem orReason {ε α : Type} {x : Except ε α} {y : α} (same : x = .ok y) (reason : ε → Reason) :
    Passes full [] (CheckM.orReason reason x) y := by
  rw [same]
  exact .pure full y

theorem forM {check : α → CheckM PUnit} {looks : α → List Look} {xs : List α}
    (each : ∀ x ∈ xs, Passes full (looks x) (check x) ⟨⟩) :
    Passes full (xs.flatMap looks) (xs.forM check) ⟨⟩ := by
  induction xs with
  | nil => exact .pure full _
  | cons x xs ih =>
    rw [List.flatMap_cons]
    exact (each x List.mem_cons_self).bind (ih fun y member => each y (.tail _ member))

theorem foldlM (f : Nat → α → EStateM ε Scope Nat) (looks : α → List Look) (xs : List α)
    (each : ∀ x ∈ xs, ∀ n, ∃ n', Passes full (looks x) (f n x) n') (n : Nat) :
    ∃ n', Passes full (xs.flatMap looks) (xs.foldlM f n) n' := by
  induction xs generalizing n with
  | nil => exact ⟨n, .pure full n⟩
  | cons x xs ih =>
    obtain ⟨middle, first⟩ := each x List.mem_cons_self n
    obtain ⟨n', rest⟩ := ih (fun y member => each y (.tail _ member)) middle
    exact ⟨n', by rw [List.flatMap_cons, List.foldlM_cons]; exact first.bind rest⟩

theorem foldlM_of_nil (f : Nat → α → EStateM ε Scope Nat) (xs : List α)
    (each : ∀ x ∈ xs, ∀ n, ∃ n', Passes full [] (f n x) n') (n : Nat) :
    ∃ n', Passes full [] (xs.foldlM f n) n' := by
  obtain ⟨n', passes⟩ := foldlM f (fun _ => []) xs each n
  rw [List.flatMap_eq_nil_iff.2 fun _ _ => rfl] at passes
  exact ⟨n', passes⟩

/-- A check that passes is counted. -/
theorem pass {check : CheckM Unit} {looks : List Look} (passes : Passes full looks check ())
    (progress : Nat) (element : String) :
    Passes full looks (VerifyM.pass progress element check) (progress + 1) := by
  intro total before scope settled under known
  obtain ⟨later, success, result⟩ := passes total before scope settled under known
  refine ⟨later, ?_, result⟩
  simp only [VerifyM.pass, EStateM.run_bind, EStateM.run_get, success]
  rfl

end Passes

namespace ClassSet

variable {full : Scope} {set : ClassSet}

theorem checkName_passes {ident : Ident} {name : String} (admits : ident.Admits name) :
    Passes full [] (checkName ident name) () := by
  refine .require ?_ _
  cases strong : ident.isStrong with
  | false => rfl
  | true => simp [admits strong]

theorem checkKind_passes {block : ClassBlock} {id : ClassId}
    (holds : set.ClassHolds full block id) :
    Passes full [] (checkKind block.kind (set.classAt id)) () := by
  cases kind : block.kind with
  | ordinary => exact .pure full ()
  | interface => exact .require (holds.isInterface kind) _
  | enumeration => exact .require (holds.isEnum kind) _

theorem weakNames_of_isWildcard {ident : Ident} (wildcard : ident.isWildcard = true) :
    weakNames ident.text = [] := by
  have any : isAnyName ident.text = true := by
    rw [Ident.text, eq_of_beq wildcard]
    cases ident.weak <;> rfl
  rw [weakNames, any, Bool.not_true, Bool.and_false]
  rfl

theorem checkSuper_passes (injective : full.Injective set) {block : ClassBlock} {id : ClassId}
    (holds : set.ClassHolds full block id) {line : SupertypeLine} (member : line ∈ block.supers)
    (kept : line.mode ≠ .add) :
    Passes full [⟨weakNames line.ident.text, False⟩] (set.checkSuper (set.classAt id) line) () := by
  unfold checkSuper
  split
  · rename_i wildcard
    rw [weakNames_of_isWildcard wildcard]
    exact .look fun _ scope under _ => ⟨scope, rfl, .refl under, fun _ member => nomatch member⟩
  · rename_i named
    obtain ⟨name, superName, agrees⟩ := holds.supers line member kept (by simpa using named)
    rw [superName]
    exact .requireM (namesAgree_decidesUnder injective line.ident.text name) agrees _

theorem checkInterface_passes (injective : full.Injective set) {block : ClassBlock} {id : ClassId}
    (holds : set.ClassHolds full block id) {line : SupertypeLine}
    (member : line ∈ block.interfaces) (kept : line.mode ≠ .add) :
    Passes full [⟨weakNames line.ident.text, set.Ambiguous (set.classAt id).interfaces⟩]
      (set.checkInterface (set.classAt id) line) () := by
  obtain ⟨name, inside, agrees⟩ := holds.interfaces line member kept
  unfold checkInterface
  split
  · rename_i wildcard
    rw [weakNames_of_isWildcard wildcard]
    refine .look fun _ scope under _ => ⟨scope, ?_, .refl under, fun _ member => nomatch member⟩
    rw [CheckM.require, if_pos]
    · rfl
    · cases interfaces : (set.classAt id).interfaces with
      | nil =>
        rw [interfaces] at inside
        cases inside
      | cons first rest => rfl
  · refine .look fun total scope under clear => ?_
    obtain ⟨later, success, result⟩ :=
      matchFirst_of_under injective total under clear inside agrees
    refine ⟨later, ?_, result⟩
    change (do
      EStateM.set ((set.matchFirst line.ident.text (set.classAt id).interfaces).run scope).2
      CheckM.require ((set.matchFirst line.ident.text (set.classAt id).interfaces).run scope).1
        (.interface line.ident) : CheckM Unit).run scope = _
    rw [success]
    rfl

theorem checkClass_passes (injective : full.Injective set) {block : ClassBlock} {id : ClassId}
    (holds : set.ClassHolds full block id) :
    Passes full (set.headerLooks block id) (set.checkClass block id) () := by
  have kept : ∀ {lines : List SupertypeLine} {line : SupertypeLine},
      line ∈ lines.filter (fun l => l.mode != .add) → line ∈ lines ∧ line.mode ≠ .add := by
    intro lines line member
    simpa using member
  have supers : Passes full _ _ _ := Passes.forM fun line member =>
    checkSuper_passes injective holds (kept member).1 (kept member).2
  have interfaces : Passes full _ _ _ := Passes.forM fun line member =>
    checkInterface_passes injective holds (kept member).1 (kept member).2
  rw [headerLooks, List.map_eq_flatMap, List.map_eq_flatMap]
  exact (checkName_passes holds.name).bind
    ((checkKind_passes holds).bind (supers.bind interfaces))

theorem checkField_passes (injective : full.Injective set) {line : FieldLine} {id : FieldId}
    (holds : set.FieldHolds full line id) :
    Passes full [⟨line.type.weakNames, False⟩] (set.checkField line id) () := by
  obtain ⟨type, parsed, agrees⟩ := holds.type
  refine (checkName_passes holds.name).bind ((Passes.orReason parsed _).bind
    ((Passes.requireM (typesAgree_decidesUnder injective line.type type) agrees _).bind
      ((Passes.require (by simp [holds.isStatic]) _).bind
        ((Passes.require (by simp [holds.isPrivate]) _).bind ?_))))
  cases wanted : line.value with
  | none => exact .pure full ()
  | some expected => exact .require (by simp [holds.value expected wanted]) _

theorem checkMethodHead_passes (injective : full.Injective set) {block : MethodBlock}
    {m : MethodEntry} {type : MethodDesc} (holds : set.HeadHolds full block m type) :
    Passes full [⟨block.type.weakNames, False⟩] (set.checkMethodHead block m) type := by
  refine (checkName_passes holds.name).bind ((Passes.orReason holds.desc _).bind
    (.look fun total scope under _ => ?_))
  obtain ⟨later, success, result⟩ :=
    (methodTypesAgree_decidesUnder injective block.type type).settles holds.types total scope under
  refine ⟨later, ?_, result⟩
  change set.methodTypesAgree block.type type scope = _ at success
  unfold methodTypesAgree at success
  cases compared : (set.checkMethodTypes block.type type).run scope with
  | error e reached =>
    rw [compared] at success
    cases success
  | ok check reached =>
    rw [compared] at success
    obtain rfl := (Prod.mk.inj success).2
    simp only [EStateM.run_bind, EStateM.run_get, compared, run_set]
    simp [CheckM.require, holds.isStatic, holds.isPrivate, holds.isProtected]

theorem checkBody_passes (injective : full.Injective set) {block : MethodBlock}
    (only : ∀ l ∈ block.insns, l.pattern.BindsOnlyClasses) {type : MethodDesc} {body : MethodId}
    {code : Code} (holds : BodyHolds ⟨set, body, type⟩ full block.insns code) :
    Passes full (bodyLooks set block.insns code) (set.checkBody block type body code) () := by
  intro total before scope settled under known
  obtain ⟨later, places, walked, reaches, settles⟩ :=
    walk_finds injective only holds total settled under known
  refine ⟨later.recordMatch body places, ?_,
    ⟨reaches.under.congr rfl, fun key id bound => reaches.extends_ key id bound⟩, settles⟩
  rw [checkBody]
  simp only [EStateM.run_bind, EStateM.run_get, walked]
  rfl

theorem checkMethod_passes (injective : full.Injective set) {block : MethodBlock}
    (only : ∀ l ∈ block.insns, l.pattern.BindsOnlyClasses) {owner : ClassId} {id : MethodId}
    (holds : set.MethodHolds full block owner id) :
    Passes full (set.methodLooks block owner id) (set.checkMethod block owner id) () := by
  obtain ⟨type, head, inBody⟩ := holds
  rw [methodLooks, ← List.singleton_append]
  refine (checkMethodHead_passes injective head).bind ?_
  split
  · rename_i sought
    obtain ⟨body, code, isBody, isCode, found⟩ := inBody sought
    rw [isBody]
    simp only [Option.bind_some, isCode, Option.elim_some]
    exact checkBody_passes injective only found
  · exact .pure full ()

/-- What is assigned to a line or block is checked, unless it is added. -/
theorem verifyElement_passes {α : Type} {mode : Mode} (element : String) (kind : ElementKind)
    {check : α → CheckM Unit} {assigned : Option α} {looks : α → List Look}
    (passes : mode ≠ .add → ∃ x, assigned = some x ∧ Passes full (looks x) (check x) ()) (n : Nat) :
    ∃ n', Passes full (if mode = .add then [] else assigned.elim [] looks)
      (verifyElement mode element kind check assigned n) n' := by
  unfold verifyElement
  split
  · exact ⟨n, .pure full n⟩
  · obtain ⟨x, rfl, checks⟩ := passes ‹_›
    exact ⟨n + 1, checks.pass n element⟩

theorem verifyClass_passes (injective : full.Injective set) {block : ClassBlock}
    (only : ∀ m ∈ block.methods, ∀ l ∈ m.insns, l.pattern.BindsOnlyClasses)
    {choice : ClassChoice}
    (holds : block.mode ≠ .add → ∃ id, set.ChoiceHolds full block choice id) (n : Nat) :
    ∃ n', Passes full (set.choiceLooks block choice) (set.verifyClass block choice n) n' := by
  unfold verifyClass choiceLooks
  split
  · exact ⟨n, .pure full n⟩
  · obtain ⟨id, holds⟩ := holds ‹_›
    rw [holds.cls, Option.elim_some]
    dsimp only
    obtain ⟨n₁, fields⟩ := Passes.foldlM
      (fun n e => verifyElement e.1.mode (e.1.describe block) .field (set.checkField e.1) e.2 n) _
      (block.fields.zip choice.fields)
      (fun e member n => verifyElement_passes _ _ (fun kept =>
        (holds.fields e member kept).imp fun field h =>
          ⟨h.1, checkField_passes injective h.2⟩) n) (n + 1)
    obtain ⟨n₂, methods⟩ := Passes.foldlM
      (fun n e => verifyElement e.1.mode (e.1.describe block) .method
        (set.checkMethod e.1 id) e.2 n)
      _ (block.methods.zip choice.methods)
      (fun e member n => verifyElement_passes _ _ (fun kept =>
        (holds.methods e member kept).imp fun method h =>
          ⟨h.1, checkMethod_passes injective (only e.1 (List.of_mem_zip member).1) h.2⟩) n) n₁
    exact ⟨n₂, ((checkClass_passes injective holds.header).pass n block.describe).bind
      (fields.bind methods)⟩

/-- A name that is not bound is claimed without a look. -/
theorem claim_passes_of_not_bindable {α : Type} {mode : Mode} {element : String}
    {kind : ElementKind} {ident : Ident} (strong : ident.isBindable = false)
    {bind : α → Scope → Option Scope} {assigned : Option α}
    (some : mode ≠ .add → ∃ x, assigned = some x) (n : Nat) :
    ∃ n', Passes full [] (claim mode element kind ident bind assigned n) n' := by
  unfold claim
  split
  · exact ⟨n, .pure full n⟩
  · obtain ⟨x, rfl⟩ := some ‹_›
    simp only [strong, Bool.false_eq_true, if_false]
    exact ⟨n + 1, .pure full (n + 1)⟩

theorem claim_passes (injective : full.Injective set) {block : ClassBlock}
    (kept : block.mode ≠ .add) (element : String) {choice : ClassChoice} {id : ClassId}
    (holds : set.ChoiceHolds full block choice id) (n : Nat) :
    ∃ n', Passes full (if block.ident.isBindable then [⟨[block.ident.text], False⟩] else [])
      (claim block.mode element .cls block.ident
        (fun id scope => scope.bindClass? block.ident.text id) choice.cls n) n' := by
  cases weak : block.ident.isBindable with
  | false =>
    exact claim_passes_of_not_bindable weak (fun _ => ⟨id, holds.cls⟩) n
  | true =>
    refine ⟨n + 1, .look fun _ scope under _ => ?_⟩
    obtain ⟨later, bound, reaches, after⟩ :=
      Scope.bindClass?_of_under under injective (holds.named weak)
    refine ⟨later, ?_, reaches, fun name member => ?_⟩
    · unfold claim
      rw [if_neg kept, holds.cls]
      simp only [weak, if_true, EStateM.run_bind, EStateM.run_get, bound]
      rfl
    · rw [List.mem_singleton.1 member, after]
      rfl

theorem claimClass_passes (injective : full.Injective set) {block : ClassBlock}
    (fieldsStrong : ∀ line ∈ block.fields, line.ident.isBindable = false)
    (methodsStrong : ∀ m ∈ block.methods, m.ident.isBindable = false) {choice : ClassChoice}
    (holds : block.mode ≠ .add → ∃ id, set.ChoiceHolds full block choice id) (n : Nat) :
    ∃ n', Passes full (claimLooks block) (set.claimClass block choice n) n' := by
  unfold claimClass claimLooks
  split
  · exact ⟨n, .pure full n⟩
  · rename_i kept
    obtain ⟨id, holds⟩ := holds kept
    obtain ⟨n₁, cls⟩ := claim_passes injective kept block.describe holds n
    obtain ⟨n₂, fields⟩ := Passes.foldlM_of_nil
      (fun n e => claim e.1.mode (e.1.describe block) .field e.1.ident
        (fun id scope =>
          scope.bindField? set (choice.cls.getD default) (.of e.1.ident e.1.desc) id) e.2 n)
      (block.fields.zip choice.fields)
      (fun e member n => claim_passes_of_not_bindable (fieldsStrong e.1 (List.of_mem_zip member).1)
        (fun kept => (holds.fields e member kept).imp fun _ h => h.1) n) n₁
    obtain ⟨n₃, methods⟩ := Passes.foldlM_of_nil
      (fun n e => claim e.1.mode (e.1.describe block) .method e.1.ident
        (fun id scope =>
          scope.bindMethod? set (choice.cls.getD default) (.of e.1.ident e.1.desc) id) e.2 n)
      (block.methods.zip choice.methods)
      (fun e member n => claim_passes_of_not_bindable (methodsStrong e.1 (List.of_mem_zip member).1)
        (fun kept => (holds.methods e member kept).imp fun _ h => h.1) n) n₂
    refine ⟨n₃, ?_⟩
    rw [← List.append_nil (ite _ _ _)]
    nth_rewrite 2 [← List.append_nil ([] : List Look)]
    exact cls.bind (fields.bind methods)

/-- An assignment that satisfies a script is accepted if no line has to choose for a name that no
earlier line has settled. -/
theorem accepts_of_satisfies {script : Script} (only : script.BindsOnlyClasses)
    (injective : full.Injective set) {a : Assignment}
    (total : full.Settles (Look.allNames (set.looks script a)))
    (satisfies : set.Satisfies full script a) (settled : Look.Settled [] (set.looks script a)) :
    ∃ final, set.Accepts script {} a final := by
  rw [looks, Look.allNames_append] at total
  obtain ⟨settledClaims, settledChecks⟩ := Look.settled_append.1 settled
  obtain ⟨claimed, claims⟩ := Passes.foldlM (fun n e => set.claimClass e.1 e.2 n) _
    (script.classes.zip a)
    (fun e member n => claimClass_passes injective (only.fields e.1 (List.of_mem_zip member).1)
      (only.methods e.1 (List.of_mem_zip member).1) (satisfies e member) n) 0
  obtain ⟨count, checks⟩ := Passes.foldlM (fun n e => set.verifyClass e.1 e.2 n) _
    (script.classes.zip a)
    (fun e member n => verifyClass_passes injective (only.insns e.1 (List.of_mem_zip member).1)
      (satisfies e member) n) 0
  obtain ⟨bound, claimedRun, toBound, boundKnows⟩ :=
    claims (total.mono fun _ member => List.mem_append_left _ member) [] {} settledClaims
      (Scope.under_empty full) (fun _ member => nomatch member)
  obtain ⟨final, checkedRun, -, -⟩ :=
    checks (total.mono fun _ member => List.mem_append_right _ member) _ bound settledChecks
      toBound.under boundKnows
  refine ⟨final, claimed, bound, claimedRun, ?_⟩
  rw [verify, EStateM.run_bind, checkedRun]
  rfl

/-- If the names can be bound so that some assignment satisfies a script, then the search finds an
assignment, provided that no line has to choose for a name that no earlier line has settled. -/
theorem resolve_of_satisfies (set : ClassSet) (script : Script) {o : ResolveOptions} (fits : o.Fits)
    (only : script.BindsOnlyClasses) (full : Scope) (injective : full.Injective set)
    (a : Assignment) (assigned : set.FullAssignment script a)
    (total : full.Settles (Look.allNames (set.looks script a)))
    (satisfies : set.Satisfies full script a) (settled : Look.Settled [] (set.looks script a)) :
    ∃ r, set.resolve script {} (set.verify script) o = .ok r := by
  obtain ⟨final, accepted⟩ := accepts_of_satisfies only injective total satisfies settled
  exact exists_resolve_of_accepts fits assigned accepted

/-- The class `a/A`, which implements `x/I1` and `x/I2` and has a field of type `x/I2` and a method
that does nothing. -/
def twoInterfaces : ClassSet :=
  let entry (name : String) (interfaces : List String) (fields : List FieldId)
      (methods : List MethodId) : ClassEntry :=
    { ClassEntry.fresh name none 33 with
      interfaces := interfaces
      fields := fields
      methods := methods
      view := methods
      modified := false }
  let code : Code := { insns := [.simple 0, .simple Opcode.voidReturn] }
  { classes := #[entry "x/I1" [] [] [], entry "x/I2" [] [] [],
      entry "a/A" ["x/I1", "x/I2"] [⟨0⟩] [⟨0⟩]]
    methods := #[⟨⟨"m", "()V", 1, [], some code⟩, ⟨2⟩, [⟨2⟩], false⟩]
    fields := #[⟨⟨"f", "Lx/I2;", 1, none⟩, ⟨2⟩, [⟨2⟩], false⟩] }

/-- A block for `a/A` with an interface, a field of that type and a method that returns. -/
def fieldOfInterface : ClassBlock :=
  ⟨.keep, .ordinary, ⟨"a/A", false⟩, 1, [], [⟨.keep, ⟨"I", true⟩⟩],
    [⟨.keep, ⟨"f", false⟩, "L~I;", .object "~I", false, false, none, 3⟩],
    [⟨.keep, ⟨"m", false⟩, "()V", ⟨[], .void⟩, false, false, false,
      [⟨.keep, .any, .any, 5, ".any"⟩, ⟨.keep, .ret, .ret, 6, ".return"⟩], 4⟩]⟩

def secondInterface : Scope := { classes := .insert .empty "~I" ⟨1⟩ }

def fieldOfInterfaceChoice : ClassChoice := ⟨some ⟨2⟩, [some ⟨0⟩], [some ⟨0⟩]⟩

theorem secondInterface_injective : secondInterface.Injective twoInterfaces := by
  have only : ∀ k id, secondInterface.class? k = some id → k = "~I" ∧ id = ⟨1⟩ := by
    intro k id bound
    rw [Scope.class?, secondInterface, Table.get?_insert] at bound
    split at bound
    · exact ⟨‹_›, (Option.some.inj bound).symm⟩
    · cases bound
  constructor
  · intro k k' id one two
    rw [(only k id one).1, (only k' id two).1]
  · intro k id bound
    rw [(only k id bound).2]
    decide +kernel

theorem fieldOfInterface_fullChoice :
    twoInterfaces.FullChoice fieldOfInterface fieldOfInterfaceChoice := by
  have fields : twoInterfaces.fieldCandidates ⟨2⟩ = [⟨0⟩] := by decide
  have methods : twoInterfaces.methodCandidates ⟨2⟩ = [⟨0⟩] := by decide
  refine ⟨⟨⟨2⟩, ?_, rfl⟩, .cons ⟨⟨0⟩, ?_, rfl⟩ .nil, .cons ⟨⟨0⟩, ?_, rfl⟩ .nil⟩
  · exact (twoInterfaces.mem_candidates _).2 ⟨by decide, by decide, by decide⟩
  · exact fields ▸ List.mem_cons_self
  · exact methods ▸ List.mem_cons_self

theorem fieldOfInterface_classHolds :
    twoInterfaces.ClassHolds secondInterface fieldOfInterface ⟨2⟩ where
  name := fun _ => by decide
  isInterface := fun kind => nomatch kind
  isEnum := fun kind => nomatch kind
  supers := fun _ member => nomatch member
  interfaces := by
    intro line member _
    obtain rfl := List.mem_singleton.1 member
    have interfaces : (twoInterfaces.classAt ⟨2⟩).interfaces = ["x/I1", "x/I2"] := by decide
    refine ⟨"x/I2", ?_, rfl⟩
    rw [interfaces]
    exact .tail _ List.mem_cons_self

theorem fieldOfInterface_bodyHolds :
    BodyHolds ⟨twoInterfaces, ⟨0⟩, ⟨[], .void⟩⟩ secondInterface
      [⟨.keep, .any, .any, 5, ".any"⟩, ⟨.keep, .ret, .ret, 6, ".return"⟩]
      { insns := [.simple 0, .simple Opcode.voidReturn] } where
  regions := by
    intro l member isRegion
    have line := SoughtLine.line_mem_of_ofBlock member
    simp only [List.mem_cons, List.not_mem_nil, or_false] at line
    rcases line with same | same
    · rw [same] at isRegion
      cases isRegion
    · rw [same] at isRegion
      cases isRegion
  insns := by
    exact .any rfl (List.suffix_cons _ _) (.insn (by simp) (rfl) (.done rfl))

theorem fieldOfInterface_holds :
    twoInterfaces.ChoiceHolds secondInterface fieldOfInterface fieldOfInterfaceChoice ⟨2⟩ where
  cls := rfl
  named := fun weak => nomatch weak
  header := fieldOfInterface_classHolds
  fields := by
    intro e member _
    obtain rfl := List.mem_singleton.1 member
    exact ⟨⟨0⟩, rfl, fun _ => rfl, ⟨.object "x/I2", rfl, rfl⟩, rfl, rfl,
      fun _ wanted => nomatch wanted⟩
  methods := by
    intro e member _
    obtain rfl := List.mem_singleton.1 member
    exact ⟨⟨0⟩, rfl, ⟨[], .void⟩, ⟨fun _ => rfl, rfl, rfl, rfl, rfl, rfl⟩,
      fun _ => ⟨⟨0⟩, { insns := [.simple 0, .simple Opcode.voidReturn] }, by decide, by decide,
        fieldOfInterface_bodyHolds⟩⟩

def beforeField (blocks : List ClassBlock) : Script := ⟨blocks ++ [fieldOfInterface]⟩

def anyInterface : ClassBlock := ⟨.keep, .ordinary, ⟨"I", true⟩, 1, [], [], [], []⟩

theorem beforeField_bindsOnlyClasses {blocks : List ClassBlock}
    (empty : ∀ block ∈ blocks, block.fields = [] ∧ block.methods = []) :
    (beforeField blocks).BindsOnlyClasses := by
  constructor
  · intro block member line inside
    rcases List.mem_append.1 member with before | last
    · rw [(empty block before).1] at inside
      cases inside
    · obtain rfl := List.mem_singleton.1 last
      obtain rfl := List.mem_singleton.1 inside
      rfl
  · intro block member m inside
    rcases List.mem_append.1 member with before | last
    · rw [(empty block before).2] at inside
      cases inside
    · obtain rfl := List.mem_singleton.1 last
      obtain rfl := List.mem_singleton.1 inside
      rfl
  · intro block member m inside l isLine
    rcases List.mem_append.1 member with before | last
    · rw [(empty block before).2] at inside
      cases inside
    · obtain rfl := List.mem_singleton.1 last
      obtain rfl := List.mem_singleton.1 inside
      rcases List.mem_pair.1 isLine with rfl | rfl
      · trivial
      · trivial

theorem secondInterface_settles {names : List String} (only : ∀ name ∈ names, name = "~I") :
    secondInterface.Settles names := by
  intro name member
  rw [only name member]
  decide

theorem anyInterface_holds :
    twoInterfaces.ChoiceHolds secondInterface anyInterface ⟨some ⟨1⟩, [], []⟩ ⟨1⟩ where
  cls := rfl
  named := fun _ => Table.get?_insert_self _ _ _
  header := ⟨fun strong => (nomatch strong), fun kind => (nomatch kind), fun kind => (nomatch kind),
    fun _ member => (nomatch member), fun _ member => (nomatch member)⟩
  fields := fun _ member => nomatch member
  methods := fun _ member => nomatch member

theorem resolve_of_satisfies_interfaceBlock :
    ∃ r, twoInterfaces.resolve (beforeField [anyInterface]) {}
      (twoInterfaces.verify (beforeField [anyInterface])) {} = .ok r := by
  have names : Look.allNames (twoInterfaces.looks (beforeField [anyInterface])
      [⟨some ⟨1⟩, [], []⟩, fieldOfInterfaceChoice]) = ["~I", "~I", "~I"] := by decide
  refine resolve_of_satisfies twoInterfaces (beforeField [anyInterface]) (by decide)
    (beforeField_bindsOnlyClasses (by simp [anyInterface])) secondInterface
    secondInterface_injective [⟨some ⟨1⟩, [], []⟩, fieldOfInterfaceChoice] ?_ ?_ ?_ ?_
  · refine .cons ⟨⟨⟨1⟩, ?_, rfl⟩, .nil, .nil⟩ (.cons fieldOfInterface_fullChoice .nil)
    exact (twoInterfaces.mem_candidates _).2 ⟨by decide, by decide, by decide⟩
  · refine secondInterface_settles fun name member => ?_
    rw [names] at member
    simpa using member
  · intro e member _
    rcases List.mem_pair.1 member with rfl | rfl
    · exact ⟨⟨1⟩, anyInterface_holds⟩
    · exact ⟨⟨2⟩, fieldOfInterface_holds⟩
  · -- What the interface line and the return look for has been bound with the first block.
    exact ⟨nofun, fun _ => by decide, nofun, nofun, fun _ => by decide, trivial⟩

theorem candidates_twoInterfaces : twoInterfaces.candidates = [⟨2⟩, ⟨0⟩, ⟨1⟩] :=
  candidates_of_sorted (by decide +kernel) (by decide +kernel)

/-- The interface line takes the first interface, and the type of the field does not fit then,
although everything fits with the second one. -/
theorem resolve_rejects_satisfied :
    ∃ full a, (beforeField []).BindsOnlyClasses ∧ full.Injective twoInterfaces ∧
      twoInterfaces.FullAssignment (beforeField []) a ∧
      full.Settles (Look.allNames (twoInterfaces.looks (beforeField []) a)) ∧
      twoInterfaces.Satisfies full (beforeField []) a ∧
      twoInterfaces.resolve (beforeField []) {} (twoInterfaces.verify (beforeField [])) {} =
        .error (.noMatch ⟨"field a/A.f L~I;", .type "L~I;" "Lx/I2;"⟩) := by
  have looks : Look.allNames (twoInterfaces.looks (beforeField []) [fieldOfInterfaceChoice]) =
    ["~I", "~I"] := by decide
  refine ⟨secondInterface, [fieldOfInterfaceChoice], beforeField_bindsOnlyClasses (by simp),
    secondInterface_injective, .cons fieldOfInterface_fullChoice .nil, ?_, ?_, ?_⟩
  · refine secondInterface_settles fun name member => ?_
    rw [looks] at member
    simpa using member
  · intro e member _
    obtain rfl := List.mem_singleton.1 member
    exact ⟨⟨2⟩, fieldOfInterface_holds⟩
  · rw [resolve_eq_search (by decide)]
    simp only [beforeField, fieldOfInterface, List.nil_append, search, forAssignments, forChoices,
      classOptions, candidates_twoInterfaces]
    decide +kernel

end ClassSet

end JvmPatch
