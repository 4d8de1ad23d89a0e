import JvmPatch.Proofs.Apply.Labels
import JvmPatch.Proofs.Pattern.Rebuilding
import JvmPatch.Proofs.Pattern.Under

/-! Why a line cannot be added. What can be added says all about the instruction, except what its
weak class names stand for; and a label that gets a name has not been given out before. -/

set_option autoImplicit false

namespace JvmPatch

namespace Scope

/-- One of some weak class names stands for nothing. -/
def Misses (scope : Scope) (names : List String) (e : UnboundName) : Prop :=
  e.name ∈ names ∧ scope.class? e.name = none

variable {scope later : Scope} {set : ClassSet} {names names' : List String}

theorem Misses.mono {e : UnboundName} (misses : scope.Misses names e)
    (subset : ∀ name ∈ names, name ∈ names') :
    scope.Misses names' e :=
  misses.imp_left (subset e.name)

theorem Misses.congr {e : UnboundName} (misses : scope.Misses names e)
    (same : later.classes = scope.classes) :
    later.Misses names e := by
  rwa [Misses, class?, same]

theorem mapClass_ends {name : String} (notAny : isAnyName name = false) :
    Ends (fun _ => True) (scope.Misses (weakNames name)) (scope.mapClass set name) := by
  unfold mapClass
  split
  · rename_i weak
    split
    · trivial
    · exact ⟨mem_weakNames.2 ⟨rfl, weak, notAny⟩, ‹_›⟩
  · trivial

theorem mapType_ends {type : TypeDesc} (closed : type.hasWildcard = false) :
    Ends (fun real => real.isArray = type.isArray) (scope.Misses type.weakNames)
      (scope.mapType set type) := by
  obtain ⟨dims, base⟩ := type
  cases base with
  | object name => exact ((mapClass_ends closed).mono (fun _ _ => rfl) fun _ misses => misses).map
  | _ => rfl

theorem mapMethod_ends {type : MethodDesc} (params : type.params.any TypeDesc.hasWildcard = false)
    (result : type.result.hasWildcard = false) :
    Ends (fun _ => True) (scope.Misses type.weakNames) (scope.mapMethod set type) := by
  have each : ∀ t ∈ type.params,
    Ends (fun real => real.isArray = t.isArray) (scope.Misses type.weakNames)
      (scope.mapType set t) := by
    intro t member
    refine (mapType_ends (eq_false_of_ne_true (List.any_eq_false.1 params t member))).mono
      (fun _ h => h) ?_
    exact fun e misses => misses.mono fun name inside =>
      List.mem_append_left _ (List.mem_flatMap.2 ⟨t, member, inside⟩)
  refine (Ends.mapM each).bind fun _ _ =>
    ((mapType_ends result).mono (fun _ h => h) fun e misses => ?_).bind
    fun _ _ => trivial
  exact misses.mono fun name inside => List.mem_append_right _ inside

end Scope

/-- What a pattern lacks to stand for an instruction: a class for one of its weak names, or the
dimensions of an array. -/
inductive Pattern.Lacks (scope : Scope) (p : Pattern) : InstantiateError → Prop where
  | unbound {e : UnboundName} : scope.Misses p.weakNames e → Lacks scope p (.unbound e)
  | notAnArray {type : TypeDesc} : ¬p.MakesArrays → Lacks scope p (.notAnArray type)

theorem Pattern.Lacks.congr {scope later : Scope} {p : Pattern} {e : InstantiateError}
    (lacks : p.Lacks scope e) (same : later.classes = scope.classes) : p.Lacks later e := by
  cases lacks with
  | unbound misses => exact .unbound (misses.congr same)
  | notAnArray flat => exact .notAnArray flat

/-- The names of a body stand for labels that have been given out, and class names for the same
classes as in a scope. -/
structure Labelling.Over (base : MethodId → Label → Prop) (body : MethodId) (scope : Scope)
    (names : Labelling) : Prop where
  counts : names.Counts base body
  classes : names.scope.classes = scope.classes

namespace BodyContext

variable {base : MethodId → Label → Prop} {body : MethodId} {scope : Scope}
  {F : InstantiateError → Prop}

theorem value_failsOnly {α : Type} {P : Labelling → Prop} {o : Operand α}
    (closed : o.isAny = false) :
    FailsOnly P F o.value := by
  cases o with
  | any => cases closed
  | is x => exact .pure x

theorem value_is_failsOnly {α β : Type} {P : Labelling → Prop} {x : α} {next : α → InstantiateM β}
    (rest : FailsOnly P F (next x)) : FailsOnly P F ((Operand.is x).value >>= next) := rest

/-- A label that has not been given out can get a name. -/
theorem run_labelFor_of_counts {cx : BodyContext} (isBody : cx.body = body) {l : LabelRef}
    (closed : l ≠ .any) {names : Labelling} (counts : names.Counts base body) :
    ∃ placed later, (cx.labelFor l).run names = .ok placed later ∧
      later.scope.classes = names.scope.classes := by
  cases l with
  | any => exact absurd rfl closed
  | weak name =>
    cases known : names.scope.label? cx.body name with
    | some bound => exact ⟨bound, names, run_labelFor known, rfl⟩
    | none =>
      have unused : (names.scope.labels.entries.any fun e =>
          e.1.body == cx.body && e.2 == ⟨names.nextLabel⟩) = false := by
        refine List.any_eq_false.2 fun e member taken => ?_
        rw [Bool.and_eq_true, beq_iff_eq, beq_iff_eq] at taken
        have below := counts e member
        dsimp only at below
        rw [if_pos (taken.1.trans isBody), taken.2] at below
        exact Nat.lt_irrefl _ below
      obtain ⟨later, free, same⟩ : ∃ later, names.scope.bindLabel? cx.body name ⟨names.nextLabel⟩ =
          some later ∧ later.classes = names.scope.classes := by
        unfold Scope.bindLabel?
        simp only [known, unused, Bool.false_eq_true, if_false]
        exact ⟨_, rfl, rfl⟩
      refine ⟨⟨names.nextLabel⟩, ⟨later, names.nextLabel + 1⟩, ?_, same⟩
      rw [labelFor, EStateM.run_bind, EStateM.run_get]
      simp only [known, free]
      rfl

theorem labelFor_failsOnly {cx : BodyContext} (isBody : cx.body = body) {l : LabelRef}
    (closed : l ≠ .any) :
    FailsOnly (Labelling.Over base body scope) F (cx.labelFor l) := by
  intro names agrees
  have counted := cx.labelFor_below isBody l names agrees.counts (List.forall_mem_nil _)
  obtain ⟨placed, later, ran, same⟩ := run_labelFor_of_counts isBody closed agrees.counts
  rw [ran] at counted ⊢
  exact ⟨counted.1, same.trans agrees.classes⟩

/-- A name or type can be read unless it has a weak class name that stands for nothing. -/
theorem mapped_failsOnly {α β : Type} {p : Pattern} {names : List String} {Q : α → Prop}
    {f : Scope → Except UnboundName α} {next : α → InstantiateM β}
    (subset : ∀ name ∈ names, name ∈ p.weakNames)
    (ends : ∀ scope : Scope, Ends Q (scope.Misses names) (f scope))
    (rest : ∀ x, Q x → FailsOnly (Labelling.Over base body scope) (p.Lacks scope) (next x)) :
    FailsOnly (Labelling.Over base body scope) (p.Lacks scope) (mapped f >>= next) := by
  intro names agrees
  have one := ends names.scope
  cases read : f names.scope with
  | ok x =>
    rw [read] at one
    rw [run_bind_of_ok (run_mapped_of_ok read)]
    exact rest x one names agrees
  | error e =>
    rw [read] at one
    simp only [mapped, EStateM.run_bind, EStateM.run_get, read, run_throw]
    exact ⟨agrees, .unbound ((one.congr agrees.classes.symm).mono subset)⟩

theorem classOperandFor_failsOnly {cx : BodyContext} {p : Pattern} {type : TypeDesc}
    (closed : type.hasWildcard = false) (subset : ∀ name ∈ type.weakNames, name ∈ p.weakNames) :
    FailsOnly (Labelling.Over base body scope) (p.Lacks scope) (cx.classOperandFor type) :=
  mapped_failsOnly subset (fun _ => Scope.mapType_ends closed) fun _ _ => .pure _

/-- An instruction can be added unless a weak class name in it stands for nothing or it makes arrays
of a type that is no array. -/
theorem instantiate_failsOnly {cx : BodyContext} (isBody : cx.body = body) {p : Pattern}
    (addable : p.checkAddable = .ok ()) (noRegion : p.isTryCatch = false) (read : p.OwnerIsRead) :
    FailsOnly (Labelling.Over base body scope) (p.Lacks scope) (cx.instantiate p) := by
  have closed := Pattern.hasWildcard_of_checkAddable addable
  have label : ∀ l : LabelRef, (l == .any) = false →
      FailsOnly (Labelling.Over base body scope) (p.Lacks scope) (cx.labelFor l) :=
    fun l notAny => labelFor_failsOnly isBody (by simpa using notAny)
  have done : ∀ insn : Insn, FailsOnly (Labelling.Over base body scope) (p.Lacks scope)
      (pure insn : InstantiateM Insn) := fun _ => .pure _
  unfold instantiate
  split
  case h_1 => cases addable
  case h_2 => cases noRegion
  case h_3 => exact (label _ closed).bind fun _ => done _
  case h_4 | h_5 => exact done _
  case h_6 | h_7 | h_8 | h_9 | h_10 | h_12 => exact (value_failsOnly closed).bind fun _ => done _
  case h_11 t | h_19 _ t =>
    obtain ⟨type, rfl, noWildcard⟩ := Operand.exists_closed closed
    refine value_is_failsOnly (.bind (classOperandFor_failsOnly noWildcard ?_) fun _ => done _)
    exact fun _ inside => inside
  case h_13 i d =>
    obtain ⟨index, delta⟩ := Bool.or_eq_false_iff.1 closed
    exact (value_failsOnly index).bind fun _ => (value_failsOnly delta).bind fun _ => done _
  case h_14 => exact (label _ closed).bind fun _ => done _
  case h_15 low high default targets =>
    simp only [Pattern.hasWildcard, Bool.or_eq_false_iff] at closed
    obtain ⟨⟨⟨isLow, isHigh⟩, isDefault⟩, isTargets⟩ := closed
    refine (value_failsOnly isLow).bind fun _ => (value_failsOnly isHigh).bind fun _ =>
      (label _ isDefault).bind fun _ => (FailsOnly.mapM fun l member => ?_).bind fun _ => done _
    refine label l (beq_eq_false_iff_ne.2 ?_)
    rintro rfl
    simp [member] at isTargets
  case h_16 default cases =>
    obtain ⟨isDefault, isCases⟩ := Bool.or_eq_false_iff.1 closed
    refine (label _ isDefault).bind fun _ =>
      (FailsOnly.mapM fun c member => ?_).bind fun _ => done _
    obtain ⟨key, target⟩ :=
      Bool.or_eq_false_iff.1 (eq_false_of_ne_true (List.any_eq_false.1 isCases c member))
    exact (value_failsOnly key).bind fun _ => (label _ target).bind fun _ => .pure _
  case h_17 op owner name type desc =>
    simp only [Pattern.hasWildcard, Bool.or_eq_false_iff] at closed
    have notAny := (Ident.isAnyName_text read).trans closed.1.1
    refine mapped_failsOnly (fun _ => List.mem_append_left _) (fun _ => Scope.mapClass_ends notAny)
      fun _ _ => .bind (fun _ agrees => agrees) fun _ => ?_
    exact mapped_failsOnly (fun _ => List.mem_append_right _) (fun _ => Scope.mapType_ends closed.2)
      fun _ _ => done _
  case h_18 op owner name type desc =>
    simp only [Pattern.hasWildcard, Bool.or_eq_false_iff] at closed
    have notAny := (Ident.isAnyName_text read).trans closed.1.1.1
    refine mapped_failsOnly (fun _ => List.mem_append_left _) (fun _ => Scope.mapClass_ends notAny)
      fun _ _ => .bind (fun _ agrees => agrees) fun _ => ?_
    exact mapped_failsOnly (fun _ => List.mem_append_right _)
      (fun _ => Scope.mapMethod_ends closed.1.2 closed.2) fun _ _ => done _
  case h_20 t =>
    obtain ⟨type, rfl, noWildcard⟩ := Operand.exists_closed closed
    refine value_is_failsOnly ?_
    split
    · exact done _
    · exact .bind (classOperandFor_failsOnly noWildcard fun _ inside => inside) fun _ => done _
  case h_21 t dims =>
    obtain ⟨isType, isDims⟩ := Bool.or_eq_false_iff.1 closed
    obtain ⟨type, rfl, noWildcard⟩ := Operand.exists_closed isType
    refine value_is_failsOnly (mapped_failsOnly (fun _ inside => inside)
      (fun _ => Scope.mapType_ends noWildcard) fun real same => ?_)
    split
    · exact (value_failsOnly isDims).bind fun _ => done _
    · rename_i flat
      exact .throw (.notAnArray fun arrays => flat (same.trans arrays))

/-- An exception region can be added unless a weak class name in it stands for nothing. -/
theorem instantiateRegion_failsOnly {cx : BodyContext} (isBody : cx.body = body) {p : Pattern}
    (addable : p.checkAddable = .ok ()) (isRegion : p.isTryCatch = true) :
    FailsOnly (Labelling.Over base body scope) (p.Lacks scope) (cx.instantiateRegion p) := by
  have closed := Pattern.hasWildcard_of_checkAddable addable
  cases p with
  | tryCatch start stop handler catchType =>
    obtain ⟨noWildcard, isCatchType⟩ := Bool.or_eq_false_iff.1 closed
    have label : ∀ l ∈ [start, stop, handler],
        FailsOnly (Labelling.Over base body scope)
          ((Pattern.tryCatch start stop handler catchType).Lacks scope)
          (cx.labelFor l) := by
      refine fun l member => labelFor_failsOnly isBody ?_
      rintro rfl
      simp [member] at noWildcard
    have rest : ∀ catches : Option String, FailsOnly (Labelling.Over base body scope)
        ((Pattern.tryCatch start stop handler catchType).Lacks scope) (do
          let start ← cx.labelFor start
          let stop ← cx.labelFor stop
          let handler ← cx.labelFor handler
          pure (⟨start, stop, handler, catches⟩ : Region)) :=
      fun _ => (label _ (by simp)).bind fun _ => (label _ (by simp)).bind fun _ =>
        (label _ (by simp)).bind
        fun _ => .pure _
    unfold instantiateRegion
    dsimp only
    cases catchType with
    | none => exact rest none
    | some type =>
      have catches : FailsOnly (Labelling.Over base body scope)
          ((Pattern.tryCatch start stop handler (some type)).Lacks scope)
            (cx.classOperandFor type) :=
        classOperandFor_failsOnly isCatchType fun _ inside => inside
      exact catches.bind fun name => rest (some name)
  | _ => cases isRegion

end BodyContext

/-- The line can be added, and it names classes as a script does. -/
structure InsnLine.CanBeAdded (l : InsnLine) : Prop where
  addable : l.pattern.checkAddable = .ok ()
  owner : l.pattern.OwnerIsRead

/-- One of some lines has a number, and what it lacks explains an error. -/
def Blames (lines : InsnLine → Prop) (scope : Scope) (n : Nat) (cause : InstantiateError) : Prop :=
  ∃ l, lines l ∧ l.line = n ∧ l.pattern.Lacks scope cause

/-- If nothing can be built for a line, one of some lines is to blame. -/
def EditFault.Explained (lines : InsnLine → Prop) (scope : Scope) (fault : EditFault) : Prop :=
  ∀ n cause, fault = .instantiate n cause → Blames lines scope n cause

namespace BodyContext

variable {base : MethodId → Label → Prop} {body : MethodId} {scope : Scope}
  {lines : InsnLine → Prop}

theorem build_failsOnly {α : Type} {P : Labelling → Prop} {m : InstantiateM α} {l : InsnLine}
    (isLine : lines l) (fails : FailsOnly P (l.pattern.Lacks scope) m) :
    FailsOnly (fun e : BodyEdit => P e.names) (EditFault.Explained lines scope)
      (EditM.build l.line m) := by
  intro e holds
  rw [run_build]
  cases ran : m.run e.names with
  | ok x names => exact fails.ok holds ran
  | error cause names =>
    obtain ⟨kept, lacks⟩ := fails.error holds ran
    refine ⟨kept, fun n cause same => ?_⟩
    cases same
    exact ⟨l, isLine, rfl, lacks⟩

variable {cx : BodyContext}

theorem addLine_failsOnly (lines : InsnLine → Prop) (isBody : cx.body = body) {l : InsnLine}
    (fine : l.CanBeAdded) (isLine : lines l) :
    FailsOnly (fun e : BodyEdit => e.names.Over base body scope) (EditFault.Explained lines scope)
      (cx.addLine l) := by
  unfold addLine
  split
  · rename_i isRegion
    exact (build_failsOnly isLine (instantiateRegion_failsOnly isBody fine.addable isRegion)).bind
      fun _ => .modify fun _ agrees => agrees
  · rename_i noRegion
    exact (build_failsOnly isLine
      (instantiate_failsOnly isBody fine.addable (eq_false_of_ne_true noRegion)
      fine.owner)).bind fun _ => .modify fun _ agrees => agrees

theorem foundLine_failsOnly {P : Labelling → Prop} (insns : List Insn)
    (places : MethodMatch) (index : Nat) (l : InsnLine) :
    FailsOnly (fun e : BodyEdit => P e.names) (EditFault.Explained lines scope)
      (cx.foundLine insns places index l) := by
  have other : ∀ n cause, EditFault.Explained lines scope (.inconsistent n cause) :=
    fun _ _ _ _ same => nomatch same
  unfold foundLine
  split
  · exact .throw (other _ _)
  · refine .get fun e holds => ?_
    dsimp only
    split
    · exact .throw (other _ _)
    · split
      · exact .set holds
      · exact .throw (other _ _)

theorem regionLine_failsOnly {P : Labelling → Prop} (places : MethodMatch) (index : Nat)
    (l : InsnLine) :
    FailsOnly (fun e : BodyEdit => P e.names) (EditFault.Explained lines scope)
      (regionLine places index l) := by
  unfold regionLine
  split
  · exact .throw fun _ _ same => nomatch same
  · split
    · exact .modify fun _ holds => holds
    · exact .pure _

theorem editLines_failsOnly (lines : InsnLine → Prop) (isBody : cx.body = body) (insns : List Insn)
    (places : MethodMatch) {block : List InsnLine}
    (fine : ∀ l ∈ block, l.mode = .add → l.CanBeAdded ∧ lines l) (index : Nat) :
    FailsOnly (fun e : BodyEdit => e.names.Over base body scope) (EditFault.Explained lines scope)
      (cx.editLines insns places index block) := by
  induction block generalizing index with
  | nil => exact .pure _
  | cons l ls ih =>
    rw [editLines_cons]
    refine FailsOnly.bind ?_ fun _ => ih (fun l member => fine l (.tail _ member)) _
    unfold editLine
    split
    · obtain ⟨added, isLine⟩ := fine l List.mem_cons_self ‹_›
      exact addLine_failsOnly lines isBody added isLine
    split
    · exact regionLine_failsOnly places index l
    split
    · split
      · exact .modify fun _ agrees => agrees
      · exact .pure _
    · exact foundLine_failsOnly insns places index l

end BodyContext

namespace ApplyM

variable {s t : ApplyState} {p : PendingBody} {pending : List PendingBody} {n : Nat}
  {cause : InstantiateError}

/-- An error of the lines of a block that arose where the names were known is explained by what a
line lacks afterwards. -/
theorem blames_of_runEdit {base : MethodId → Label → Prop} {body : MethodId}
    {lines : InsnLine → Prop} {className method : String} {next : Nat} {m : EditM Unit}
    (fails : FailsOnly (fun e : BodyEdit => e.names.Over base body s.scope)
      (EditFault.Explained lines s.scope) m)
    (start : Labelling.Counts base body ⟨s.scope, next⟩)
    (h : (runEdit className method next m).run s = .error (.line n (.instantiate cause)) t) :
    Blames lines t.scope n cause := by
  obtain ⟨fault, edit, ran, same, -, isFault⟩ := runEdit_error h
  obtain ⟨agrees, explained⟩ := fails.error (s := { names := ⟨s.scope, next⟩ }) ⟨start, rfl⟩ ran
  obtain ⟨l, isLine, number, lacks⟩ := explained n cause (isFault n cause rfl)
  exact ⟨l, isLine, number, lacks.congr (same ▸ agrees.classes)⟩

theorem checked_ne {line : Nat} {code : Code} :
    (checked line code).run s ≠ .error (.line n (.instantiate cause)) t := by
  intro h
  unfold checked at h
  split at h <;> cases h

/-- If a body cannot be built or changed because of a line that adds something, the line lacks
something. -/
theorem applyBody_blames (counted : LabelsCounted s (p :: pending))
    (fine : ∀ l, p.Adds l → l.CanBeAdded)
    (h : (applyBody p).run s = .error (.line n (.instantiate cause)) t) :
    Blames p.Adds t.scope n cause := by
  cases p with
  | added id block =>
    rcases run_bind_error h with got | ⟨start, u, got, h⟩
    · cases got
    cases got
    dsimp only at h
    split at h
    · cases h
    rename_i type _
    rcases run_bind_error h with failed | ⟨edit, v, -, h⟩
    · have isBody : (BodyContext.mk s.classes id type).body = id := rfl
      refine blames_of_runEdit (.forM fun l member => ?_) counted.added.names failed
      exact BodyContext.addLine_failsOnly (PendingBody.added id block).Adds isBody
        (fine l member) member
    rcases run_bind_error h with failed | ⟨code, w, -, h⟩
    · exact (checked_ne failed).elim
    · cases h
  | matched cls handle block =>
    rw [applyBody] at h
    split at h
    · cases h
    rcases run_bind_error h with got | ⟨start, u, got, h⟩
    · cases got
    cases got
    dsimp only at h
    split at h
    · cases h
    rename_i body _
    split at h
    · cases h
    rename_i type _
    split at h
    · cases h
    rename_i code isCode
    rcases run_bind_error h with failed | ⟨edit, v, -, h⟩
    · have isBody : (BodyContext.mk s.classes body type).body = body := rfl
      refine blames_of_runEdit ?_ (counted.matched isCode).names failed
      exact BodyContext.editLines_failsOnly (PendingBody.matched cls handle block).Adds isBody _ _
        (fun l member mode => ⟨fine l ⟨member, mode⟩, member, mode⟩) 0
    · split at h
      · rcases run_bind_error h with failed | ⟨code, w, -, h⟩
        · exact (checked_ne failed).elim
        · cases h
      · cases h

theorem applyBodies_blame (counted : LabelsCounted s pending)
    (fine : ∀ p ∈ pending, ∀ l, p.Adds l → l.CanBeAdded)
    (h : (pending.forM applyBody).run s = .error (.line n (.instantiate cause)) t) :
    ∃ p ∈ pending, Blames p.Adds t.scope n cause := by
  induction pending generalizing s with
  | nil => cases h
  | cons p ps ih =>
    rcases run_bind_error h with failed | ⟨_, u, done, h⟩
    · exact ⟨p, List.mem_cons_self, applyBody_blames counted (fine p List.mem_cons_self) failed⟩
    · obtain ⟨q, member, blames⟩ := ih (counted.step (bodyEdited_of_ok done))
        (fun q member => fine q (.tail _ member)) h
      exact ⟨q, .tail _ member, blames⟩

end ApplyM

/-- The class of a reference is read as a name. -/
theorem Pattern.compile_ownerIsRead (kind : PatternKind) (params : List (List Char))
    (text : List Char) (lines : List (List Char)) :
    Ends Pattern.OwnerIsRead (fun _ => True) (compile kind params text lines) := by
  have operand : ∀ {α β : Type} (x : Except OperandError α) {f : α → Except OperandError β}
      {Q : β → Prop}, (∀ a, Ends Q (fun _ => True) (f a)) → Ends Q (fun _ => True) (x >>= f) :=
    fun x f Q rest => (Ends.any x fun _ => trivial).bind fun a _ => rest a
  have read : ∀ word : List Char, ∃ s, Ident.ofChars word = .ofText s :=
    fun word => ⟨String.ofList word, by rw [Ident.ofText, String.toList_ofList]⟩
  unfold compile
  dsimp only
  split
  all_goals first
    | trivial
    | exact operand _ fun _ => trivial
    | exact operand _ fun _ => read _
    | exact operand _ fun _ => operand _ fun _ => trivial
    | exact operand _ fun _ => operand _ fun _ => operand _ fun _ => operand _ fun _ => trivial

theorem InsnLine.IsRead.canBeAdded {l : InsnLine} (read : l.IsRead)
    (mode : l.mode = .add) : l.CanBeAdded := by
  obtain ⟨line, raw, c, kind, lines, -, built⟩ := read
  have addable := InsnLine.checkAddable_of_ofCommand built mode
  have compiled := (InsnLine.mode_of_ofCommand built).2
  have owner := Pattern.compile_ownerIsRead kind c.params (c.textFrom 0) lines
  rw [compiled] at owner
  exact ⟨addable, owner⟩

theorem Script.canBeAdded (script : Script) (read : ∀ c ∈ script.classes, c.IsRead) {l : InsnLine}
    (member : l ∈ script.addedLines) : l.CanBeAdded := by
  obtain ⟨isRead, mode⟩ := Script.isRead_of_addedLines read member
  exact isRead.canBeAdded mode

namespace ClassSet

/-- Whatever class files are taken in and whatever scripts are applied that build added bodies
before they change them: if a line of a script cannot be added, a weak class name in it stands for
nothing, or it makes arrays of a type that is no array. -/
theorem added_line_lacks {scripts : ClassSet → Script → Resolution → Prop} {set : ClassSet}
    {text : String} {script : Script} {o : ResolveOptions} {r : Resolution} {n : Nat}
    {cause : InstantiateError} {s : ApplyState} (attained : Attained IsRead scripts set)
    (inOrder : ∀ set script r, scripts set script r → set.BuildsFirst script r)
    (parsed : Script.parse text = .ok script)
    (accepted : set.resolve script {} (set.verify script) o = .ok r)
    (builtFirst : set.BuildsFirst script r)
    (failed : (ApplyM.applyAll script r.assignment).run ⟨set, r.scope, {}⟩ =
      .error (.line n (.instantiate cause)) s) :
    ∃ l ∈ script.addedLines, l.line = n ∧ l.pattern.Lacks s.scope cause := by
  have read := Script.parse_isRead parsed
  rw [ApplyM.applyAll_eq] at failed
  rcases run_bind_error failed with failed | ⟨applied, t, ran, rest⟩
  · exact nomatch (Changes.declare script r.assignment _).isOfBody failed
  rcases run_bind_error rest with failed | ⟨_, _, -, done⟩
  rotate_left
  · cases done
  have counted := labelsCounted_of_declare attained.wellFormed attained.closed
    (attained.labelsBelow inOrder)
    accepted ran builtFirst
  have isAdded : ∀ p ∈ applied.flatMap Prod.snd, ∀ l, p.Adds l → l ∈ script.addedLines :=
    fun p member l adds => ApplyM.mem_addedLines_of_declare read ran member adds
  obtain ⟨p, member, l, adds, number, lacks⟩ := ApplyM.applyBodies_blame counted
    (fun p member l adds => script.canBeAdded read (isAdded p member l adds)) failed
  exact ⟨l, isAdded p member l adds, number, lacks⟩

def errorOf {ε σ α : Type} : EStateM.Result ε σ α → Option ε
  | .ok _ _ => none
  | .error e _ => some e

theorem exists_of_errorOf {ε σ α : Type} {result : EStateM.Result ε σ α} {e : ε}
    (failed : errorOf result = some e) : ∃ s, result = .error e s := by
  cases result with
  | ok x s => cases failed
  | error e' s =>
    cases failed
    exact ⟨s, rfl⟩

/-- Adds a method that makes an object of a class that has not been found. -/
def addsUnknown : Script :=
  fooBlocks .add [(.add,
    [⟨.add, .type Opcode.new, .type Opcode.new (.is (.object "~C")), 3, "+new ~C"⟩])]

theorem added_line_lacks_class :
    ∃ s, (ApplyM.applyAll addsUnknown addsLoopFound.assignment).run ⟨{}, addsLoopFound.scope, {}⟩ =
        .error (.line 3 (.instantiate (.unbound ⟨"~C"⟩))) s ∧
      ∃ l ∈ addsUnknown.addedLines, l.line = 3 ∧ l.pattern.Lacks s.scope (.unbound ⟨"~C"⟩) := by
  have parsed : Script.parse "+class a/A\n+method foo ()V\n+new ~C\n+end-method\n+end-class\n" =
      .ok addsUnknown := Script.parse_of_toList String.toList_ofList (by decide +kernel)
  obtain ⟨s, failed⟩ := exists_of_errorOf (show errorOf ((ApplyM.applyAll addsUnknown
    addsLoopFound.assignment).run ⟨{}, addsLoopFound.scope, {}⟩) =
      some (.line 3 (.instantiate (.unbound ⟨"~C"⟩))) by decide +kernel)
  have attained : Attained IsRead (fun _ _ _ => False) {} := .empty []
  exact ⟨s, failed, added_line_lacks (o := {}) attained (fun _ _ _ none => none.elim)
    parsed (by decide) (buildsFirst_of_single (by decide +kernel)) failed⟩

/-- Replaces a method, with a block in between that changes the body of the new one before it is
built. -/
def addsInto : String :=
  ".class a/A\n-method foo ()V\n-end-method\n.method foo ()V\n+label ~L\n+goto ~L\n.end-method\n" ++
    "+method foo ()V\n+label ~M\n+return\n+end-method\n.end-class\n"

def addsIntoScript : Script :=
  ⟨[⟨.keep, .ordinary, ⟨"a/A", false⟩, 1, [], [], [],
    [⟨.remove, ⟨"foo", false⟩, "()V", ⟨[], .void⟩, false, false, false, [], 2⟩,
      ⟨.keep, ⟨"foo", false⟩, "()V", ⟨[], .void⟩, false, false, false,
        [⟨.add, .label, .label (.weak "L"), 5, "+label ~L"⟩,
          ⟨.add, .jump Opcode.goto, .jump Opcode.goto (.weak "L"), 6, "+goto ~L"⟩], 4⟩,
      ⟨.add, ⟨"foo", false⟩, "()V", ⟨[], .void⟩, false, false, false,
        [⟨.add, .label, .label (.weak "M"), 9, "+label ~M"⟩,
          ⟨.add, .ret, .ret, 10, "+return"⟩], 8⟩]⟩]⟩

/-- The label that the name in the line gets is taken already by a name of the block in between. -/
theorem added_label_taken :
    ∃ set s, Attained IsRead (fun _ _ _ => True) set ∧ Script.parse addsInto = .ok addsIntoScript ∧
      set.resolve addsIntoScript {} (set.verify addsIntoScript) {} = .ok replacesFooFound ∧
        (ApplyM.applyAll addsIntoScript replacesFooFound.assignment).run ⟨set,
          replacesFooFound.scope, {}⟩ =
          .error (.line 9 (.instantiate (.labelTaken "M"))) s ∧
        ¬∃ l ∈ addsIntoScript.addedLines, l.line = 9 ∧
          l.pattern.Lacks s.scope (.labelTaken "M") := by
  have added : Attained IsRead (fun _ _ _ => True) (afterApply {} addsFoo addsLoopFound) :=
    .apply (o := {}) (.empty []) (by decide) trivial
  obtain ⟨s, failed⟩ := exists_of_errorOf (show errorOf ((ApplyM.applyAll addsIntoScript
    replacesFooFound.assignment).run ⟨afterApply {} addsFoo addsLoopFound,
    replacesFooFound.scope, {}⟩) =
      some (.line 9 (.instantiate (.labelTaken "M"))) by decide +kernel)
  have parsed : Script.parse addsInto = .ok addsIntoScript :=
    Script.parse_of_toList (Script.toList_append_of String.toList_ofList String.toList_ofList)
      (by decide +kernel)
  refine ⟨_, s, added, parsed, by decide +kernel, failed, ?_⟩
  rintro ⟨l, -, -, lacks⟩
  exact nomatch lacks

end ClassSet

end JvmPatch
