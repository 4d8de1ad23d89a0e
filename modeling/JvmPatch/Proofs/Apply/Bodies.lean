import JvmPatch.Proofs.Apply.Declarations
import JvmPatch.Proofs.Apply.Editing
import JvmPatch.Proofs.ClassSet.Shape

/-! Building and changing the bodies that remain to be done once everything is declared. No step
changes what a reference means or which body stands behind a method, and each writes one body, so
that a block finds its lines as it would have found them in the beginning. -/

set_option autoImplicit false

namespace JvmPatch

namespace ClassSet

theorem keepsNames_of_shape {set later : ClassSet} (same : later.shape = set.shape) :
    set.KeepsNames later :=
  fun id _ => same_of_shape (f := fun set => (set.classAt id).name)
    (fun set => set.classAt_shape (·.name) (fun _ => rfl) id) same

theorem bodyOf_of_shape {set later : ClassSet} (same : later.shape = set.shape) (cls : ClassId)
    (handle : MethodId) : later.bodyOf cls handle = set.bodyOf cls handle :=
  same_of_shape (f := fun set => set.bodyOf cls handle)
    (fun set => set.bodyOf_shape cls handle) same

theorem desc_of_shape {set later : ClassSet} (same : later.shape = set.shape) (id : MethodId) :
    (later.methodAt id).desc = (set.methodAt id).desc :=
  same_of_shape (f := fun set => (set.methodAt id).desc)
    (fun set => set.methodAt_shape (·.desc) (fun _ => rfl) id) same

/-- Whether the weak name of a member fits depends only on the shape of the classes and on the
bindings of members. -/
theorem memberFits_of_shape {set later : ClassSet} {scope scope' : Scope} {pattern : Pattern}
    {insn : Insn} (same : later.shape = set.shape) (fields : scope'.fields = scope.fields)
    (methods : scope'.methods = scope.methods) (fits : set.MemberFits scope pattern insn) :
    later.MemberFits scope' pattern insn := by
  unfold MemberFits at fits ⊢
  split
  case h_1 expected o n t d op owner name desc =>
    intro weak
    obtain ⟨cls, field, meant, free⟩ := FieldFits.congr fields (fits weak)
    refine ⟨cls, field, ?_, ?_⟩
    · rw [← meant]
      refine same_of_shape (f := fun set => set.meantField? owner name desc) (fun set => ?_) same
      simp only [meantField?, find?_shape, findField_shape]
    · rwa [same_of_shape (f := fun set => scope'.field? set cls _)
        (fun set => set.field?_shape scope' cls _) same]
  case h_2 expected o n t d op owner name desc _ =>
    intro weak
    obtain ⟨cls, method, meant, free⟩ := MethodFits.congr methods (fits weak)
    refine ⟨cls, method, ?_, ?_⟩
    · rw [← meant]
      refine same_of_shape (f := fun set => set.meantMethod? owner name desc) (fun set => ?_) same
      simp only [meantMethod?, find?_shape, findMethod_shape]
    · rwa [same_of_shape (f := fun set => scope'.method? set cls _)
        (fun set => set.method?_shape scope' cls _) same]
  case h_3 => trivial

theorem code_modifyMethod_of_ne {set : ClassSet} {id other : MethodId}
    (f : MethodEntry → MethodEntry) (different : other ≠ id) :
    ((set.modifyMethod id f).methodAt other).code = (set.methodAt other).code := by
  rw [methodAt_modifyMethod_of_ne set f different]

end ClassSet

/-- Between two states only the bodies of some methods, the marks of modified classes, the counts
and the bindings of labels differ. -/
structure Rebuilt (written : MethodId → Prop) (s t : ApplyState) : Prop where
  shape : t.classes.shape = s.classes.shape
  scope : s.scope.GrowsLabels t.scope
  codes : ∀ m, ¬written m → (t.classes.methodAt m).code = (s.classes.methodAt m).code

namespace Rebuilt

variable {written written' : MethodId → Prop} {s t u : ApplyState}

theorem refl (written : MethodId → Prop) (s : ApplyState) : Rebuilt written s s :=
  ⟨rfl, .refl s.scope, fun _ _ => rfl⟩

theorem trans (first : Rebuilt written s t) (second : Rebuilt written t u) :
    Rebuilt written s u :=
  ⟨second.shape.trans first.shape, first.scope.trans second.scope,
    fun m other => (second.codes m other).trans (first.codes m other)⟩

theorem mono (rebuilt : Rebuilt written s t) (more : ∀ m, written m → written' m) :
    Rebuilt written' s t :=
  ⟨rebuilt.shape, rebuilt.scope, fun m other => rebuilt.codes m fun h => other (more m h)⟩

theorem body?_eq (rebuilt : Rebuilt written s t) (target : MethodTarget) :
    target.body? t.classes = target.body? s.classes :=
  ClassSet.bodyOf_of_shape rebuilt.shape target.cls target.handle

end Rebuilt

/-- Whether a line matches an instruction of a body in every state that the body phase can lead
to. -/
def StillMatches (s : ApplyState) (body : MethodId) (type : MethodDesc) (l : InsnLine)
    (insn : Insn) : Prop :=
  ∀ set scope, set.shape = s.classes.shape → s.scope.GrowsLabels scope →
    ((BodyContext.matchInsn ⟨set, body, type⟩ l.pattern insn).run scope).1 = true

/-- Whether a line matches an instruction of a body in some state that the body phase can lead
to. -/
def MatchesOnce (s : ApplyState) (body : MethodId) (type : MethodDesc) (l : InsnLine)
    (insn : Insn) : Prop :=
  ∃ (set : ClassSet) (scope : Scope), set.shape = s.classes.shape ∧ s.scope.GrowsLabels scope ∧
    ((BodyContext.matchInsn ⟨set, body, type⟩ l.pattern insn).run scope).1 = true

/-- The lines of a block have the recorded places in a body. -/
def PlacedIn (fits : ApplyState → MethodId → MethodDesc → InsnLine → Insn → Prop) (s : ApplyState)
    (target : MethodTarget) : Prop :=
  ∀ body code type, target.body? s.classes = some body →
    (s.classes.methodAt body).code = some code →
    MethodDesc.parse (s.classes.methodAt body).desc = .ok type →
    Placed (fits s body type) code.insns ((s.scope.methodMatch? body).getD {}) 0 0
      target.block.insns

theorem placed_of_onlyAdds {fits : InsnLine → Insn → Prop} {code : List Insn} {places : MethodMatch}
    {cursor index : Nat} {lines : List InsnLine} (adds : ∀ l ∈ lines, l.mode = .add) :
    Placed fits code places cursor index lines := by
  induction lines generalizing index with
  | nil => trivial
  | cons l ls ih =>
    rw [Placed, if_pos (adds l List.mem_cons_self)]
    exact ih fun l' h => adds l' (.tail _ h)

theorem onlyAdds_of_not_sought {block : MethodBlock} (quiet : block.hasSoughtLine = false) :
    ∀ l ∈ block.insns, l.mode = .add := by
  intro l member
  simpa using List.any_eq_false.1 quiet l member

namespace PlacedIn

variable {s t : ApplyState} {written : MethodId → Prop} {target : MethodTarget}

/-- What was ready stays ready while other bodies are written. -/
theorem later (ready : PlacedIn StillMatches s target) (rebuilt : Rebuilt written s t)
    (other : target.isSought = true → ∀ body, target.body? s.classes = some body → ¬written body) :
    PlacedIn StillMatches t target := by
  intro body code type isBody isCode isType
  cases sought : target.isSought with
  | false => exact placed_of_onlyAdds (onlyAdds_of_not_sought sought)
  | true =>
    rw [rebuilt.body?_eq] at isBody
    rw [rebuilt.codes body (other sought body isBody)] at isCode
    rw [ClassSet.desc_of_shape rebuilt.shape] at isType
    rw [Scope.methodMatch?, rebuilt.scope.bodies]
    refine (ready body code type isBody isCode isType).imp
      fun l insn still set scope same grows => ?_
    exact still set scope (same.trans rebuilt.shape) (rebuilt.scope.trans grows)

/-- What has been found afterwards was there before if other bodies were written. -/
theorem before (placed : PlacedIn MatchesOnce t target) (rebuilt : Rebuilt written s t)
    (other : target.isSought = true → ∀ body, target.body? s.classes = some body → ¬written body) :
    PlacedIn MatchesOnce s target := by
  intro body code type isBody isCode isType
  cases sought : target.isSought with
  | false => exact placed_of_onlyAdds (onlyAdds_of_not_sought sought)
  | true =>
    have there := placed body code type (by rw [rebuilt.body?_eq, isBody])
      (by rw [rebuilt.codes body (other sought body isBody), isCode])
      (by rw [ClassSet.desc_of_shape rebuilt.shape, isType])
    rw [Scope.methodMatch?, rebuilt.scope.bodies] at there
    refine there.imp fun l insn => ?_
    rintro ⟨set, scope, shape, grows, matched⟩
    exact ⟨set, scope, shape.trans rebuilt.shape, rebuilt.scope.trans grows, matched⟩

end PlacedIn

/-- The methods whose bodies a step of the body phase writes. -/
def PendingBody.Writes (set : ClassSet) (m : MethodId) : PendingBody → Prop
  | .added id _ => m = id
  | .matched cls handle block => block.changesBody = true ∧ set.bodyOf cls handle = some m

namespace BodyContext

/-- Adding lines binds labels, and does not fail because of what was found. -/
theorem addLines_run (cx : BodyContext) (ls : List InsnLine) (e : BodyEdit) :
    match (ls.forM cx.addLine).run e with
    | .ok _ t => e.names.scope.GrowsLabels t.names.scope
    | .error fault _ => fault.isInconsistent = false := by
  induction ls generalizing e with
  | nil => exact .refl _
  | cons l ls ih =>
    rw [List.forM, EStateM.run_bind]
    have one := addLine_run cx l e
    cases first : (cx.addLine l).run e with
    | error fault t =>
      rw [first] at one
      exact one.1
    | ok x t =>
      rw [first] at one
      have more := ih t
      dsimp only
      cases rest : (ls.forM cx.addLine).run t with
      | error fault u =>
        rw [rest] at more
        exact more
      | ok y u =>
        rw [rest] at more
        exact one.2.trans more

end BodyContext

namespace ApplyM

variable {s t : ApplyState}

theorem runEdit_ok {className method : String} {nextLabel : Nat} {m : EditM Unit} {edit : BodyEdit}
    (h : (runEdit className method nextLabel m).run s = .ok edit t) :
    m.run { names := ⟨s.scope, nextLabel⟩ } = .ok () edit ∧
      t = { s with scope := edit.names.scope } := by
  obtain ⟨start, u, got, h⟩ := run_bind_ok h
  cases got
  cases ran : m.run { names := ⟨s.scope, nextLabel⟩ } with
  | ok x e =>
    simp only [ran] at h
    cases h
    exact ⟨rfl, rfl⟩
  | error fault e =>
    simp only [ran] at h
    obtain ⟨_, _, -, h⟩ := run_bind_ok h
    cases fault <;> cases h

/-- If the lines of a block fail, the error is theirs, and the names that they have bound stay. -/
theorem runEdit_error {className method : String} {nextLabel : Nat} {m : EditM Unit}
    {e : ApplyError} (h : (runEdit className method nextLabel m).run s = .error e t) :
    ∃ fault edit, m.run { names := ⟨s.scope, nextLabel⟩ } = .error fault edit ∧
      t.scope = edit.names.scope ∧ e.isInconsistent = fault.isInconsistent ∧
        ∀ line cause, e = .line line (.instantiate cause) → fault = .instantiate line cause := by
  simp only [runEdit, EStateM.run_bind, EStateM.run_get] at h
  cases ran : m.run { names := ⟨s.scope, nextLabel⟩ } with
  | ok x edit =>
    rw [ran] at h
    cases h
  | error fault edit =>
    rw [ran] at h
    refine ⟨fault, edit, rfl, ?_⟩
    cases fault with
    | instantiate line cause =>
      cases h
      refine ⟨rfl, rfl, fun line' cause' same => ?_⟩
      cases same
      rfl
    | inconsistent line cause =>
      cases h
      exact ⟨rfl, rfl, fun line' cause' same => nomatch same⟩

theorem checked_ok {line : Nat} {code code' : Code}
    (h : (checked line code).run s = .ok code' t) : t = s := by
  unfold checked at h
  split at h
  · cases h
    rfl
  · cases h

theorem checked_error {line : Nat} {code : Code} {e : ApplyError}
    (h : (checked line code).run s = .error e t) : e.isInconsistent = false := by
  unfold checked at h
  split at h
  · cases h
  · cases h
    rfl

/-- Writing a body leaves the shape and all other bodies alone. -/
theorem rebuilt_of_write (s : ApplyState) (id : MethodId) (code : Code) :
    Rebuilt (· = id) s
      { s with classes := s.classes.modifyMethod id fun m => { m with code := some code } } := by
  refine ⟨ClassSet.shape_modifyMethod s.classes ?_ id, .refl _, fun m other => ?_⟩
  · exact fun _ => rfl
  · exact ClassSet.code_modifyMethod_of_ne _ other

theorem rebuilt_of_touch (written : MethodId → Prop) (s : ApplyState) (id : ClassId)
    (summary : ApplySummary) :
    Rebuilt written s
      { s with
        classes := s.classes.modifyClass id fun c => { c with modified := true }
        summary := summary } := by
  refine ⟨ClassSet.shape_modifyClass s.classes ?_ id, .refl _, fun m _ => rfl⟩
  exact fun _ => rfl

theorem rebuilt_of_scope (written : MethodId → Prop) {scope : Scope}
    (grows : s.scope.GrowsLabels scope) : Rebuilt written s { s with scope := scope } :=
  ⟨rfl, grows, fun _ _ => rfl⟩

theorem buildBody_ok {id : MethodId} {block : MethodBlock}
    (h : (buildBody id block).run s = .ok () t) : Rebuilt (· = id) s t := by
  obtain ⟨start, u, got, h⟩ := run_bind_ok h
  cases got
  dsimp only at h
  split at h
  · cases h
  · rename_i type _
    obtain ⟨edit, v, edited, h⟩ := run_bind_ok h
    obtain ⟨code, w, done, h⟩ := run_bind_ok h
    obtain ⟨ran, rfl⟩ := runEdit_ok edited
    obtain rfl := checked_ok done
    cases h
    have grows := BodyContext.addLines_run ⟨s.classes, id, type⟩ block.insns
      { names := ⟨s.scope, 0⟩ }
    rw [ran] at grows
    exact (rebuilt_of_scope _ grows).trans (rebuilt_of_write _ id code)

theorem buildBody_error {id : MethodId} {block : MethodBlock} {e : ApplyError}
    (h : (buildBody id block).run s = .error e t) : e.isInconsistent = false := by
  rcases run_bind_error h with got | ⟨start, u, got, h⟩
  · cases got
  cases got
  dsimp only at h
  split at h
  · cases h
    rfl
  · rename_i type _
    rcases run_bind_error h with failed | ⟨edit, v, edited, h⟩
    · obtain ⟨fault, edit, ran, -, same, -⟩ := runEdit_error failed
      have consistent := BodyContext.addLines_run ⟨s.classes, id, type⟩ block.insns
        { names := ⟨s.scope, 0⟩ }
      rw [ran] at consistent
      exact same.trans consistent
    rcases run_bind_error h with failed | ⟨code, w, done, h⟩
    · exact checked_error failed
    · cases h

theorem parse_of_require {desc : String} {type : MethodDesc}
    (required : MethodDesc.require desc = .ok type) : MethodDesc.parse desc = .ok type := by
  unfold MethodDesc.require at required
  cases parsed : MethodDesc.parse desc with
  | ok t =>
    rw [parsed] at required
    cases required
    rfl
  | error e =>
    rw [parsed] at required
    cases required

theorem changeBody_ok {cls : ClassId} {handle : MethodId} {block : MethodBlock}
    (h : (changeBody cls handle block).run s = .ok () t) :
    Rebuilt (fun m => block.changesBody = true ∧ s.classes.bodyOf cls handle = some m) s t ∧
      PlacedIn MatchesOnce s ⟨cls, handle, block, .keep⟩ := by
  obtain ⟨start, u, got, h⟩ := run_bind_ok h
  cases got
  dsimp only at h
  split at h
  · cases h
  rename_i body isBody
  split at h
  · cases h
  rename_i type isType
  split at h
  · cases h
  rename_i code isCode
  obtain ⟨edit, v, edited, h⟩ := run_bind_ok h
  obtain ⟨ran, rfl⟩ := runEdit_ok edited
  have start : s.scope.GrowsLabels s.scope := .refl _
  have grows := (BodyContext.editLines_growsLabels ⟨s.classes, body, type⟩ code.insns _ 0
    block.insns s.scope).ok start ran
  have placed := BodyContext.placed_of_editLines start ran
  constructor
  · have relabelled := rebuilt_of_scope
      (fun m => block.changesBody = true ∧ s.classes.bodyOf cls handle = some m) grows
    split at h
    · rename_i changes
      obtain ⟨code', w, done, h⟩ := run_bind_ok h
      obtain rfl := checked_ok done
      cases h
      refine relabelled.trans (Rebuilt.trans ?_ (rebuilt_of_touch _ _ _ _))
      refine (rebuilt_of_write _ body code').mono fun m same => ⟨changes, ?_⟩
      rw [same, isBody]
    · cases h
      exact relabelled
  · intro body' code' type' isBody' isCode' isType'
    obtain rfl := Option.some.inj (isBody.symm.trans isBody')
    obtain rfl := Option.some.inj (isCode.symm.trans isCode')
    obtain rfl := Except.ok.inj ((parse_of_require isType).symm.trans isType')
    refine placed.imp fun l insn => ?_
    rintro ⟨scope, more, matched⟩
    exact ⟨s.classes, scope, rfl, more, matched⟩

theorem changeBody_error {cls : ClassId} {handle : MethodId} {block : MethodBlock}
    {e : ApplyError} (ready : PlacedIn StillMatches s ⟨cls, handle, block, .keep⟩)
    (h : (changeBody cls handle block).run s = .error e t) : e.isInconsistent = false := by
  rcases run_bind_error h with got | ⟨start, u, got, h⟩
  · cases got
  cases got
  dsimp only at h
  split at h
  · cases h
    rfl
  rename_i body isBody
  split at h
  · cases h
    rfl
  rename_i type isType
  split at h
  · cases h
    rfl
  rename_i code isCode
  rcases run_bind_error h with failed | ⟨edit, v, edited, h⟩
  · obtain ⟨fault, edit, ran, -, same, -⟩ := runEdit_error failed
    have placed := (ready body code type isBody isCode (parse_of_require isType)).imp
      fun l insn (still : StillMatches s body type l insn) scope more =>
        still s.classes scope rfl more
    exact same.trans (BodyContext.editLines_consistent (.refl _) placed ran)
  · split at h
    · rcases run_bind_error h with failed | ⟨code', w, done, h⟩
      · exact checked_error failed
      · cases h
    · cases h

theorem applyBody_ok {p : PendingBody} (h : (applyBody p).run s = .ok () t) :
    Rebuilt (p.Writes s.classes) s t ∧
      ∀ target, p.target? = some target → PlacedIn MatchesOnce s target := by
  cases p with
  | added id block => exact ⟨buildBody_ok h, fun _ none => nomatch none⟩
  | matched cls handle block =>
    rw [applyBody] at h
    split at h
    · rename_i empty
      cases h
      refine ⟨.refl _ s, fun target same => ?_⟩
      cases same
      have noLines : block.insns = [] := by simpa using empty
      intro body code type _ _ _
      rw [noLines]
      trivial
    · obtain ⟨rebuilt, placed⟩ := changeBody_ok h
      refine ⟨rebuilt, fun target same => ?_⟩
      cases same
      exact placed

theorem applyBody_error {p : PendingBody} {e : ApplyError}
    (ready : ∀ target, p.target? = some target → PlacedIn StillMatches s target)
    (h : (applyBody p).run s = .error e t) : e.isInconsistent = false := by
  cases p with
  | added id block => exact buildBody_error h
  | matched cls handle block =>
    rw [applyBody] at h
    split at h
    · cases h
    · exact changeBody_error (ready _ rfl) h

/-- No body that a step looks into is written by a step before it. -/
def Apart (set : ClassSet) (pending : List PendingBody) : Prop :=
  pending.Pairwise fun p q => ∀ target, q.target? = some target → target.isSought = true →
    ∀ body, target.body? set = some body → ¬p.Writes set body

theorem writes_of_shape {set later : ClassSet} (same : later.shape = set.shape) (m : MethodId)
    (p : PendingBody) : p.Writes later m ↔ p.Writes set m := by
  cases p with
  | added id block => exact Iff.rfl
  | matched cls handle block =>
    simp only [PendingBody.Writes, ClassSet.bodyOf_of_shape same]

theorem Apart.later {set later : ClassSet} {pending : List PendingBody}
    (same : later.shape = set.shape) (apart : Apart set pending) : Apart later pending := by
  refine apart.imp fun {p q} h target isTarget sought body isBody writes => ?_
  rw [MethodTarget.body?, ClassSet.bodyOf_of_shape same] at isBody
  exact h target isTarget sought body isBody ((writes_of_shape same body p).1 writes)

/-- If all blocks are ready, no step fails because of what was found. -/
theorem applyBodies_error {pending : List PendingBody} {e : ApplyError}
    (apart : Apart s.classes pending)
    (ready : ∀ p ∈ pending, ∀ target, p.target? = some target → PlacedIn StillMatches s target)
    (h : (pending.forM applyBody).run s = .error e t) : e.isInconsistent = false := by
  induction pending generalizing s with
  | nil => cases h
  | cons p ps ih =>
    obtain ⟨others, apart⟩ := List.pairwise_cons.1 apart
    rcases run_bind_error h with failed | ⟨x, u, done, h⟩
    · exact applyBody_error (ready p List.mem_cons_self) failed
    · have rebuilt := (applyBody_ok done).1
      refine ih (Apart.later rebuilt.shape apart) (fun q member target isTarget => ?_) h
      exact (ready q (.tail _ member) target isTarget).later rebuilt
        (others q member target isTarget)

/-- If all steps succeed, every block has found its lines. -/
theorem applyBodies_ok {pending : List PendingBody} (apart : Apart s.classes pending)
    (h : (pending.forM applyBody).run s = .ok () t) :
    ∀ p ∈ pending, ∀ target, p.target? = some target → PlacedIn MatchesOnce s target := by
  induction pending generalizing s with
  | nil => exact fun _ member => nomatch member
  | cons p ps ih =>
    obtain ⟨others, apart⟩ := List.pairwise_cons.1 apart
    obtain ⟨x, u, done, h⟩ := run_bind_ok h
    obtain ⟨rebuilt, placed⟩ := applyBody_ok done
    intro q member target isTarget
    rcases List.mem_cons.1 member with rfl | member
    · exact placed target isTarget
    · exact (ih (Apart.later rebuilt.shape apart) h q member target isTarget).before rebuilt
        (others q member target isTarget)

/-- What the body phase changes. -/
theorem applyBodies_rebuilt {pending : List PendingBody}
    (h : (pending.forM applyBody).run s = .ok () t) :
    Rebuilt (fun m => ∃ p ∈ pending, p.Writes s.classes m) s t := by
  induction pending generalizing s with
  | nil =>
    cases h
    exact .refl _ _
  | cons p ps ih =>
    obtain ⟨x, u, done, h⟩ := run_bind_ok h
    have one := (applyBody_ok done).1
    refine (one.mono fun m writes => ⟨p, List.mem_cons_self, writes⟩).trans ((ih h).mono ?_)
    rintro m ⟨q, member, writes⟩
    exact ⟨q, .tail _ member, (writes_of_shape one.shape m q).1 writes⟩

end ApplyM

namespace ClassSet

open ApplyM

theorem apply_runs {set : ClassSet} {script : Script} {r : Resolution} {result : Applied}
    (h : set.apply script r = .ok result) :
    ∃ applied declared final,
      (declare script r.assignment).run ⟨set, r.scope, {}⟩ = .ok applied declared ∧
        ((applied.flatMap Prod.snd).forM applyBody).run declared = .ok () final ∧
        result = ⟨final.classes, final.scope, applied.map Prod.fst, final.summary⟩ := by
  rw [apply, applyAll_eq] at h
  split at h
  · rename_i a s ran
    obtain rfl := Except.ok.inj h
    obtain ⟨applied, declared, first, rest⟩ := run_bind_ok ran
    obtain ⟨_, final, bodies, done⟩ := run_bind_ok rest
    cases done
    exact ⟨applied, declared, _, first, bodies, rfl⟩
  · cases h

theorem apply_ok {set : ClassSet} {script : Script} {r : Resolution} {result : Applied}
    (h : set.apply script r = .ok result) :
    ∃ applied declared final,
      (declare script r.assignment).run ⟨set, r.scope, {}⟩ = .ok applied declared ∧
        ((applied.flatMap Prod.snd).forM applyBody).run declared = .ok () final ∧
        result.classes = final.classes := by
  obtain ⟨applied, declared, final, first, bodies, rfl⟩ := apply_runs h
  exact ⟨applied, declared, final, first, bodies, rfl⟩

theorem apply_error {set : ClassSet} {script : Script} {r : Resolution} {e : ApplyError}
    (h : set.apply script r = .error e) :
    (∃ s, (declare script r.assignment).run ⟨set, r.scope, {}⟩ = .error e s) ∨
      ∃ applied declared s,
        (declare script r.assignment).run ⟨set, r.scope, {}⟩ = .ok applied declared ∧
          ((applied.flatMap Prod.snd).forM applyBody).run declared = .error e s := by
  rw [apply, applyAll_eq] at h
  split at h
  · cases h
  · rename_i e' s failed
    obtain rfl := Except.error.inj h
    rcases run_bind_error failed with failed | ⟨applied, declared, ran, rest⟩
    · exact .inl ⟨s, failed⟩
    · rcases run_bind_error rest with failed | ⟨_, _, -, done⟩
      · exact .inr ⟨applied, declared, s, ran, failed⟩
      · cases done

end ClassSet

end JvmPatch
