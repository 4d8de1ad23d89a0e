import JvmPatch.Proofs.Resolve.Alignment
import JvmPatch.Proofs.Resolve.Completeness

/-! What the checks of an accepted assignment leave in the scope: the bindings that they made, and
for every method block the places of its lines, as long as no later block is looked for in the same
body. -/

set_option autoImplicit false

namespace JvmPatch

/-- A method that is assigned to a method block, and the class through which it is seen. -/
structure MethodTarget where
  cls : ClassId
  handle : MethodId
  block : MethodBlock
  /-- What becomes of the class. -/
  mode : Mode

/-- The method that is assigned to a method block of a class block with a mode. -/
def MethodBlock.target (block : MethodBlock) (cls : ClassId) (mode : Mode)
    (assigned : Option MethodId) : List MethodTarget :=
  if block.mode = .add then []
  else
    match assigned with
    | none => []
    | some handle => [⟨cls, handle, block, mode⟩]

def ClassBlock.targets (block : ClassBlock) (choice : ClassChoice) : List MethodTarget :=
  if block.mode = .add then []
  else
    match choice.cls with
    | none => []
    | some cls =>
      (block.methods.zip choice.methods).flatMap fun e => e.1.target cls block.mode e.2

/-- The methods that are assigned to the blocks of a script, in order. -/
def Script.targets (script : Script) (a : Assignment) : List MethodTarget :=
  (script.classes.zip a).flatMap fun e => e.1.targets e.2

/-- A target is a method that is assigned to a block of a class that is assigned. -/
theorem choice_of_target {script : Script} {a : Assignment} {t : MethodTarget}
    (member : t ∈ script.targets a) :
    ∃ e ∈ script.classes.zip a, e.2.cls = some t.cls ∧ some t.handle ∈ e.2.methods := by
  obtain ⟨e, inside, member⟩ := List.mem_flatMap.1 member
  refine ⟨e, inside, ?_⟩
  unfold ClassBlock.targets at member
  split at member
  · cases member
  · split at member
    · cases member
    · rename_i cls chosen
      obtain ⟨e', inside', member⟩ := List.mem_flatMap.1 member
      unfold MethodBlock.target at member
      split at member
      · cases member
      · split at member
        · cases member
        · rename_i handle isMethod
          obtain rfl := List.mem_singleton.1 member
          exact ⟨chosen, isMethod ▸ (List.of_mem_zip inside').2⟩

namespace MethodTarget

/-- The method whose body stands behind the target. -/
def body? (set : ClassSet) (t : MethodTarget) : Option MethodId := set.bodyOf t.cls t.handle

/-- Whether the block is carried out in the method. -/
def edited (t : MethodTarget) : Bool := t.mode == .keep && t.block.mode == .keep

/-- Whether the block removes the method. The methods of a removed class stay. -/
def removes (t : MethodTarget) : Bool := t.mode == .keep && t.block.mode == .remove

def isSought (t : MethodTarget) : Bool := t.block.hasSoughtLine

end MethodTarget

instance (set : ClassSet) : IsPreorder Scope (Scope.Widens set) where
  refl := .refl set
  trans _ _ _ := .trans

/-- A check that succeeds has done to the scope what tests can do. -/
def CheckM.Widening {α : Type} (set : ClassSet) (check : CheckM α) : Prop :=
  Moves (Scope.Widens set) check

namespace CheckM

variable {α β : Type} {set : ClassSet}

theorem Widening.require (set : ClassSet) (condition : Bool) (reason : Reason) :
    Widening set (require condition reason) := by
  unfold CheckM.require
  split
  · exact .pure _ _
  · exact .throw _ _

theorem Widening.requireM {test : ScopeM Bool} (widens : ScopeM.Widening set test)
    (reason : Reason) : Widening set (requireM test reason) := by
  intro scope _ later h
  unfold CheckM.requireM at h
  obtain ⟨start, s₁, one, two⟩ := run_bind_ok h
  cases one
  have step := widens scope
  cases tested : test.run scope with
  | mk accepted next =>
    rw [tested] at two step
    obtain ⟨_, s₂, one, two⟩ := run_bind_ok two
    cases one
    exact step.trans (Widening.require set accepted reason next _ later two)

theorem Widening.orReason {ε : Type} (set : ClassSet) (reason : ε → Reason) (x : Except ε α) :
    Widening set (orReason reason x) := by
  cases x with
  | ok x => exact .pure _ x
  | error e => exact .throw _ _

end CheckM

namespace ClassSet

open CheckM

theorem matchFirst_widening (set : ClassSet) (pattern : String) (names : List String) :
    ScopeM.Widening set (set.matchFirst pattern names) := by
  induction names with
  | nil => exact .pure set false
  | cons name names ih =>
    intro scope
    rw [run_matchFirst_cons]
    split
    · exact set.checkClassName_widening pattern name scope
    · exact ih scope

theorem checkClass_widening (set : ClassSet) (block : ClassBlock) (id : ClassId) :
    Widening set (set.checkClass block id) := by
  refine (Widening.require set _ _).bind fun _ => .bind ?_ fun _ => .bind (.forM fun line _ => ?_)
    fun _ => .forM fun line _ => ?_
  · unfold checkKind
    split
    · exact .pure _ _
    · exact Widening.require set _ _
    · exact Widening.require set _ _
  · unfold checkSuper
    split
    · exact .pure _ _
    · split
      · exact .throw _ _
      · exact Widening.requireM ((set.checkClassName_widening _ _).bind fun _ => .pure _ _) _
  · unfold checkInterface
    split
    · exact Widening.require set _ _
    · exact Widening.requireM (set.matchFirst_widening _ _) _

theorem checkField_widening (set : ClassSet) (line : FieldLine) (id : FieldId) :
    Widening set (set.checkField line id) := by
  refine (Widening.require set _ _).bind fun _ => (Widening.orReason set _ _).bind fun type =>
    (Widening.requireM (set.typesAgree_widening _ _) _).bind fun _ =>
      (Widening.require set _ _).bind fun _ => (Widening.require set _ _).bind fun _ => ?_
  split
  · exact .pure _ _
  · exact Widening.require set _ _

/-- The check of the head of a method, which results in the type of the method. -/
theorem checkMethodHead_ok {set : ClassSet} {block : MethodBlock} {m : MethodEntry}
    {scope later : Scope} {type : MethodDesc}
    (h : (set.checkMethodHead block m).run scope = .ok type later) :
    Scope.Widens set scope later ∧ MethodDesc.parse m.desc = .ok type := by
  obtain ⟨_, s₁, named, h⟩ := run_bind_ok h
  obtain ⟨type', s₂, parsed, h⟩ := run_bind_ok h
  obtain ⟨start, s₃, got, h⟩ := run_bind_ok h
  cases got
  have first := (Widening.require set _ _ _ _ _ named).trans
    (Widening.orReason set _ _ _ _ _ parsed)
  have compared := set.checkMethodTypes_widens block.type type' s₂
  have desc : MethodDesc.parse m.desc = .ok type' := by
    cases parse : MethodDesc.parse m.desc with
    | error e =>
      rw [parse] at parsed
      cases parsed
    | ok t =>
      rw [parse] at parsed
      cases parsed
      rfl
  cases types : (set.checkMethodTypes block.type type').run s₂ with
  | error e s =>
    simp only [types] at h
    obtain ⟨_, _, -, h⟩ := run_bind_ok h
    cases h
  | ok check s =>
    simp only [types] at h compared
    obtain ⟨_, s₄, set₁, h⟩ := run_bind_ok h
    cases set₁
    have rest : CheckM.Widening set (do
        CheckM.require (block.isStatic == m.isStatic) (.modifier "static")
        CheckM.require (block.isPrivate == m.access.hasAny Access.isPrivate) (.modifier "private")
        CheckM.require (block.isProtected == m.access.hasAny Access.isProtected)
          (.modifier "protected")
        pure type') :=
      (Widening.require set _ _).bind fun _ => (Widening.require set _ _).bind fun _ =>
        (Widening.require set _ _).bind fun _ => .pure _ _
    have last := rest s type later h
    obtain ⟨_, _, -, h⟩ := run_bind_ok h
    obtain ⟨_, _, -, h⟩ := run_bind_ok h
    obtain ⟨_, _, -, h⟩ := run_bind_ok h
    cases h
    exact ⟨(first.trans compared).trans last, desc⟩

theorem bodyOf_eq_some {set : ClassSet} {cls : ClassId} {handle body : MethodId}
    (h : set.bodyOf cls handle = some body) :
    (set.methodAt body).name = (set.methodAt handle).name ∧
      (set.methodAt body).desc = (set.methodAt handle).desc := by
  obtain ⟨id, -, found⟩ := List.exists_of_findSome?_eq_some h
  have signature := List.find?_some found
  simpa [MethodEntry.hasSignature] using signature

/-- The lines of a target have been found in a body, with bindings that a scope has kept. -/
structure FoundIn (set : ClassSet) (final : Scope) (t : MethodTarget) (body : MethodId)
    (code : Code) (type : MethodDesc) (places : MethodMatch) : Prop where
  hasBody : t.body? set = some body
  hasCode : (set.methodAt body).code = some code
  hasType : MethodDesc.parse (set.methodAt body).desc = .ok type
  placed : Placed (HasMatched ⟨set, body, type⟩ final) code.insns places 0 0 t.block.insns

theorem FoundIn.later {set : ClassSet} {scope final : Scope} {t : MethodTarget} {body : MethodId}
    {code : Code} {type : MethodDesc} {places : MethodMatch}
    (found : set.FoundIn scope t body code type places) (extended : final.Extends scope) :
    set.FoundIn final t body code type places :=
  ⟨found.hasBody, found.hasCode, found.hasType, found.placed.imp fun _ _ ⟨s, s', success, kept⟩ =>
    ⟨s, s', success, extended.trans kept⟩⟩

/-- What the check of a method leaves in the scope. -/
theorem checkMethod_ok {set : ClassSet} {t : MethodTarget} {scope later : Scope}
    (h : (set.checkMethod t.block t.cls t.handle).run scope = .ok () later) :
    later.Extends scope ∧ (scope.Knows set → later.Knows set) ∧
      (t.isSought = false → later.bodies = scope.bodies) ∧
      (t.isSought = true → ∃ body code type places, set.FoundIn later t body code type places ∧
        later.bodies = scope.bodies.insert body places) := by
  obtain ⟨type, next, head, h⟩ := run_bind_ok h
  obtain ⟨widens, desc⟩ := checkMethodHead_ok head
  cases sought : t.block.hasSoughtLine with
  | false =>
    simp only [sought] at h
    cases h
    exact ⟨widens.extends_, widens.knows, fun _ => widens.bodies,
      fun h => by simp [MethodTarget.isSought, sought] at h⟩
  | true =>
    simp only [sought, if_true] at h
    cases isBody : set.bodyOf t.cls t.handle with
    | none =>
      rw [isBody] at h
      cases h
    | some id =>
      cases isCode : (set.methodAt id).code with
      | none =>
        simp only [isBody, isCode] at h
        cases h
      | some code =>
        simp only [isBody, isCode] at h
        obtain ⟨start, s, got, h⟩ := run_bind_ok h
        cases got
        cases walked : walk ⟨set, id, type⟩ t.block.insns code next with
        | error fault =>
          rw [walked] at h
          cases h
        | ok r =>
          obtain ⟨found, places⟩ := r
          rw [walked] at h
          cases h
          obtain ⟨more, placed⟩ := walk_ok walked
          have all := widens.trans more
          have extended : (found.recordMatch id places).Extends found :=
            ⟨fun _ _ h => h, fun _ _ h => h⟩
          refine ⟨extended.trans all.extends_, fun h => all.knows h,
            fun h => by simp [MethodTarget.isSought, sought] at h, fun _ => ?_⟩
          have kept := placed.imp fun _ _ ⟨s, s', success, stays⟩ =>
            (⟨s, s', success, extended.trans stays⟩ : HasMatched _ _ _ _)
          refine ⟨id, code, type, places, ⟨isBody, isCode, ?_, kept⟩, ?_⟩
          · rw [(bodyOf_eq_some isBody).2, desc]
          · change found.bodies.insert id places = _
            rw [all.bodies]

end ClassSet

/-- The checks of some targets have led from one scope to another. -/
inductive Verified (set : ClassSet) : Scope → List MethodTarget → Scope → Prop where
  | quiet {scope later} : Scope.Widens set scope later → Verified set scope [] later
  | method {t scope later} : (set.checkMethod t.block t.cls t.handle).run scope = .ok () later →
      Verified set scope [t] later
  | append {scope later latest ts us} : Verified set scope ts later →
      Verified set later us latest → Verified set scope (ts ++ us) latest

namespace Verified

variable {set : ClassSet} {scope later : Scope} {ts : List MethodTarget}

theorem extends_ (verified : Verified set scope ts later) : later.Extends scope := by
  induction verified with
  | quiet widens => exact widens.extends_
  | method h => exact (ClassSet.checkMethod_ok h).1
  | append _ _ first second => exact second.trans first

theorem knows (verified : Verified set scope ts later) (known : scope.Knows set) :
    later.Knows set := by
  induction verified with
  | quiet widens => exact widens.knows known
  | method h => exact (ClassSet.checkMethod_ok h).2.1 known
  | append _ _ first second => exact second (first known)

theorem bodies_of_other (verified : Verified set scope ts later) {body : MethodId}
    (other : ∀ t ∈ ts, t.isSought = true → t.body? set ≠ some body) :
    later.bodies.get? body = scope.bodies.get? body := by
  induction verified with
  | quiet widens => rw [widens.bodies]
  | @method t scope later h =>
    obtain ⟨-, -, quiet, sought⟩ := ClassSet.checkMethod_ok h
    cases looked : t.isSought with
    | false => rw [quiet looked]
    | true =>
      obtain ⟨found, code, type, places, inBody, bodies⟩ := sought looked
      have different : body ≠ found := by
        rintro rfl
        exact other t List.mem_cons_self looked inBody.hasBody
      rw [bodies, Table.get?_insert_of_ne _ _ different]
  | append _ _ first second =>
    rw [second fun t h => other t (List.mem_append_right _ h),
      first fun t h => other t (List.mem_append_left _ h)]

/-- Every target whose body is not looked into again has its places in the scope. -/
theorem found (verified : Verified set scope ts later)
    (alone : ts.Pairwise fun t u => t.edited = true → t.isSought = true → u.isSought = true →
      t.body? set ≠ u.body? set) :
    ∀ t ∈ ts, t.edited = true → t.isSought = true → ∃ body code type places,
      set.FoundIn later t body code type places ∧ later.bodies.get? body = some places := by
  induction verified with
  | quiet => exact fun _ h => nomatch h
  | @method t scope later h =>
    intro t' member edited looked
    obtain rfl := List.mem_singleton.1 member
    obtain ⟨body, code, type, places, found, bodies⟩ := (ClassSet.checkMethod_ok h).2.2.2 looked
    exact ⟨body, code, type, places, found, by rw [bodies, Table.get?_insert_self]⟩
  | @append _ _ _ ts us _ second firstFound secondFound =>
    obtain ⟨aloneFirst, aloneSecond, between⟩ := List.pairwise_append.1 alone
    intro t member edited looked
    rcases List.mem_append.1 member with member | member
    · obtain ⟨body, code, type, places, found, recorded⟩ :=
        firstFound aloneFirst t member edited looked
      refine ⟨body, code, type, places, found.later second.extends_, ?_⟩
      rw [second.bodies_of_other fun u h looked' same =>
        between t member u h edited looked looked' (found.hasBody.trans same.symm), recorded]
    · exact secondFound aloneSecond t member edited looked

theorem foldlM {α : Type} {f : Nat → α → VerifyM Nat} {targets : α → List MethodTarget}
    {xs : List α} {n n' : Nat}
    (each : ∀ x ∈ xs, ∀ m s m' s', (f m x).run s = .ok m' s' → Verified set s (targets x) s')
    (h : (xs.foldlM f n).run scope = .ok n' later) :
    Verified set scope (xs.flatMap targets) later := by
  induction xs generalizing n scope with
  | nil =>
    cases h
    exact .quiet (.refl _ _)
  | cons x xs ih =>
    rw [List.foldlM_cons] at h
    obtain ⟨m, s, one, rest⟩ := run_bind_ok h
    rw [List.flatMap_cons]
    exact .append (each x List.mem_cons_self _ _ _ _ one)
      (ih (fun y member => each y (.tail _ member)) rest)

theorem ofElement {α : Type} {mode : Mode} {element : String} {kind : ElementKind}
    {check : α → CheckM Unit} {assigned : Option α} {n n' : Nat}
    (widens : ∀ x, CheckM.Widening set (check x))
    (h : (ClassSet.verifyElement mode element kind check assigned n).run scope = .ok n' later) :
    Verified set scope [] later := by
  unfold ClassSet.verifyElement at h
  split at h
  · cases h
    exact .quiet (.refl _ _)
  · split at h
    · cases h
    · rename_i x
      exact .quiet (widens x _ _ _ (ClassSet.run_pass_ok h).2)

theorem ofMethod {cls : ClassId} {block : MethodBlock} {element : String} {mode : Mode}
    {assigned : Option MethodId} {n n' : Nat}
    (h : (ClassSet.verifyElement block.mode element .method (set.checkMethod block cls) assigned
      n).run scope = .ok n' later) :
    Verified set scope (block.target cls mode assigned) later := by
  unfold ClassSet.verifyElement at h
  unfold MethodBlock.target
  split at h
  · rw [if_pos ‹_›]
    cases h
    exact .quiet (.refl _ _)
  · rw [if_neg ‹_›]
    split at h
    · cases h
    · exact .method (ClassSet.run_pass_ok h).2

theorem ofClass {block : ClassBlock} {choice : ClassChoice} {n n' : Nat}
    (h : (set.verifyClass block choice n).run scope = .ok n' later) :
    Verified set scope (block.targets choice) later := by
  unfold ClassSet.verifyClass at h
  unfold ClassBlock.targets
  split at h
  · rw [if_pos ‹_›]
    cases h
    exact .quiet (.refl _ _)
  · rw [if_neg ‹_›]
    cases chosen : choice.cls with
    | none =>
      rw [chosen] at h
      cases h
    | some cls =>
      rw [chosen] at h
      obtain ⟨_, s₁, first, h⟩ := run_bind_ok h
      obtain ⟨_, s₂, fields, methods⟩ := run_bind_ok h
      have head : Verified set scope [] s₁ :=
        .quiet (set.checkClass_widening block cls _ _ _ (ClassSet.run_pass_ok first).2)
      have middle : Verified set s₁
          ((block.fields.zip choice.fields).flatMap fun _ => ([] : List MethodTarget)) s₂ :=
        .foldlM (fun e _ _ _ _ _ step => ofElement (fun id => set.checkField_widening e.1 id) step)
          fields
      have last : Verified set s₂ ((block.methods.zip choice.methods).flatMap
          fun e => e.1.target cls block.mode e.2) later :=
        .foldlM (fun e _ _ _ _ _ step => ofMethod step) methods
      rw [List.flatMap_eq_nil_iff.2 fun _ _ => rfl] at middle
      exact (head.append middle).append last

theorem ofScript {script : Script} {a : Assignment}
    (h : (set.verify script a).run scope = .ok () later) :
    Verified set scope (script.targets a) later := by
  obtain ⟨_, _, steps, done⟩ := run_bind_ok h
  cases done
  exact Verified.foldlM (fun e _ _ _ _ _ step => ofClass step) steps

end Verified

namespace ClassSet

theorem widens_of_claim {α : Type} {set : ClassSet} {mode : Mode} {element : String}
    {kind : ElementKind} {ident : Ident} {bind : α → Scope → Option Scope} {assigned : Option α}
    {n n' : Nat} {scope later : Scope}
    (widens : ∀ x s t, assigned = some x → bind x s = some t → Scope.Widens set s t)
    (h : (claim mode element kind ident bind assigned n).run scope = .ok n' later) :
    Scope.Widens set scope later := by
  unfold claim at h
  split at h
  · cases h
    exact .refl _ _
  · split at h
    · cases h
    · rename_i x
      dsimp only at h
      split at h
      · obtain ⟨start, s₁, got, h⟩ := run_bind_ok h
        cases got
        cases free : bind x scope with
        | none =>
          rw [free] at h
          cases h
        | some next =>
          rw [free] at h
          cases h
          exact widens x _ _ rfl free
      · cases h
        exact .refl _ _

theorem widens_of_foldlM {α : Type} {set : ClassSet} {f : Nat → α → VerifyM Nat} {xs : List α}
    {n n' : Nat} {scope later : Scope}
    (each : ∀ x ∈ xs, ∀ m s m' s', (f m x).run s = .ok m' s' → Scope.Widens set s s')
    (h : (xs.foldlM f n).run scope = .ok n' later) : Scope.Widens set scope later := by
  induction xs generalizing n scope with
  | nil =>
    cases h
    exact .refl _ _
  | cons x xs ih =>
    rw [List.foldlM_cons] at h
    obtain ⟨m, s, one, rest⟩ := run_bind_ok h
    exact (each x List.mem_cons_self _ _ _ _ one).trans
      (ih (fun y member => each y (.tail _ member)) rest)

theorem widens_of_claimAll {set : ClassSet} {script : Script} {a : Assignment} {n : Nat}
    {scope later : Scope} (full : set.FullAssignment script a)
    (h : (set.claimAll script a).run scope = .ok n later) : Scope.Widens set scope later := by
  refine widens_of_foldlM (fun e member m s m' s' step => ?_) h
  have choice : set.FullChoice e.1 e.2 := (List.forall₂_iff_zip.1 full).2 member
  unfold claimClass at step
  split at step
  · cases step
    exact .refl _ _
  · obtain ⟨_, s₁, cls, step⟩ := run_bind_ok step
    obtain ⟨_, s₂, fields, methods⟩ := run_bind_ok step
    have first : Scope.Widens set s s₁ := by
      refine widens_of_claim (fun id t t' chosen bound => ?_) cls
      refine Scope.bindClass?_widens ?_ bound
      have fills := choice.cls
      rw [chosen] at fills
      cases mode : e.1.mode with
      | add => exact absurd mode ‹_›
      | keep =>
        rw [mode] at fills
        obtain ⟨x, candidate, same⟩ := fills
        cases same
        exact ((set.mem_candidates _).1 candidate).1
      | remove =>
        rw [mode] at fills
        obtain ⟨x, candidate, same⟩ := fills
        cases same
        exact ((set.mem_candidates _).1 candidate).1
    have second : Scope.Widens set s₁ s₂ := widens_of_foldlM (fun _ _ _ _ _ _ step =>
      widens_of_claim (fun _ _ _ _ bound => Scope.bindField?_widens bound) step) fields
    have third : Scope.Widens set s₂ s' := widens_of_foldlM (fun _ _ _ _ _ _ step =>
      widens_of_claim (fun _ _ _ _ bound => Scope.bindMethod?_widens bound) step) methods
    exact (first.trans second).trans third

/-- The targets of an accepted assignment, in the scope that results. -/
theorem verified_of_accepts {set : ClassSet} {script : Script} {a : Assignment} {final : Scope}
    (full : set.FullAssignment script a) (accepted : set.Accepts script {} a final) :
    final.Knows set ∧ ∃ bound, Verified set bound (script.targets a) final := by
  obtain ⟨claimed, bound, claims, checks⟩ := accepted
  have nothing : Scope.Knows {} set := fun _ _ h => nomatch h
  have verified := Verified.ofScript checks
  exact ⟨verified.knows ((widens_of_claimAll full claims).knows nothing), bound, verified⟩

end ClassSet

end JvmPatch
