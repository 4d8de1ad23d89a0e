import JvmPatch.Proofs.Apply.EveryBody

/-! The labels of all bodies of a class set. However scripts are applied, and also if they fail
midway, every body places its labels once and uses no others. That a body counts all labels it has
depends on no block having changed a body before the body was built. -/

set_option autoImplicit false

namespace JvmPatch

namespace Code

theorem closed_empty : Closed {} := ⟨.nil, fun _ used => nomatch used⟩

theorem below_empty : Below {} := fun _ places => nomatch places

end Code

namespace ClassSet

theorem Attained.closed {scripts : ClassSet → Script → Resolution → Prop} {set : ClassSet}
    (attained : Attained IsRead scripts set) : AllBodies Code.Closed set := by
  refine attained.allBodies ?_ fun set script o r before all accepted _ => ?_
  · exact fun bytes file read m member code has => (ClassFile.read_labels read m member code has).1
  · exact AllBodies.afterApply_of_checked all before.wellFormed
      (firstAccepted_of_resolve accepted).full Code.closed_empty fun _ fine =>
        Code.closed_of_checkLabels fine

theorem code_of_setCode {set : ClassSet} {id m : MethodId} {new code : Code}
    (has : ((set.modifyMethod id fun m => { m with code := some new }).methodAt m).code =
      some code) :
    m = id ∧ code = new ∨ m ≠ id ∧ (set.methodAt m).code = some code := by
  by_cases same : m = id
  · subst same
    have known := (set.hasMethod_modifyMethod m m _).1 (hasMethod_of_code has)
    rw [set.methodAt_modifyMethod_self _ known] at has
    exact .inl ⟨rfl, (Option.some.inj has).symm⟩
  · rw [set.methodAt_modifyMethod_of_ne _ same] at has
    exact .inr ⟨same, has⟩

end ClassSet

/-- No block changes a body before it is built. -/
def BuiltFirst (set : ClassSet) (pending : List PendingBody) : Prop :=
  pending.Pairwise fun p q => ∀ id block, q = .added id block → ¬p.Writes set id

theorem BodyEdited.shape {s t : ApplyState} {p : PendingBody} (one : BodyEdited s p t) :
    t.classes.shape = s.classes.shape := by
  have setCode : ∀ id code,
      (s.classes.modifyMethod id fun m => { m with code := some code }).shape =
      s.classes.shape := by
    intro id code
    exact s.classes.shape_modifyMethod (f := fun m => { m with code := some code })
      (fun _ => rfl) id
  cases one with
  | idle => rfl
  | build => exact setCode _ _
  | change =>
    have mark : ∀ (set : ClassSet) id, (set.mark id).shape = set.shape := fun set id =>
      set.shape_modifyClass (f := fun c => { c with modified := true }) (fun _ => rfl) id
    exact (mark _ _).trans (setCode _ _)

theorem BuiltFirst.later {s t : ApplyState} {p : PendingBody} {pending : List PendingBody}
    (first : BuiltFirst s.classes pending) (one : BodyEdited s p t) :
    BuiltFirst t.classes pending :=
  first.imp fun apart id block isAdded writes =>
    apart id block isAdded ((ApplyM.writes_of_shape one.shape id _).1 writes)

/-- A label that is bound in a body has been given out there, and the body need not be built any
more. -/
def Counted (set : ClassSet) (pending : List PendingBody) (m : MethodId) (l : Label) : Prop :=
  (∀ code, (set.methodAt m).code = some code → l.index < code.nextLabel) ∧
    ∀ block, .added m block ∉ pending

/-- What holds before a step of the body phase if every body is built before it is changed. -/
structure LabelsCounted (s : ApplyState) (pending : List PendingBody) : Prop where
  bodies : s.classes.AllBodies Code.Below
  names : s.scope.LabelsIn (Counted s.classes pending)
  builtFirst : BuiltFirst s.classes pending

namespace LabelsCounted

variable {s t : ApplyState} {p : PendingBody} {pending : List PendingBody}

/-- After a body has been made, the names stand for labels that have been given out. -/
theorem names_of_counts {set later : ClassSet} {m : MethodId} {start : Nat} {edit : BodyEdit}
    {code : Code} (counts : edit.Counts (Counted set (p :: pending)) m start)
    (made : later.methods =
      (set.modifyMethod m fun e => { e with code := some (edit.apply code) }).methods)
    (free : ∀ block, .added m block ∉ pending) :
    edit.names.scope.LabelsIn (Counted later pending) := by
  intro e member
  have known := counts.names e member
  dsimp only at known
  split at known
  · rename_i same
    refine ⟨fun code' has => ?_, same ▸ free⟩
    rw [ClassSet.methodAt, made] at has
    rcases ClassSet.code_of_setCode has with ⟨-, rfl⟩ | ⟨other, -⟩
    · exact known
    · exact absurd same other
  · rename_i other
    refine ⟨fun code' has => ?_, fun block member => known.2 block (.tail _ member)⟩
    rw [ClassSet.methodAt, made] at has
    rcases ClassSet.code_of_setCode has with ⟨same, -⟩ | ⟨-, old⟩
    · exact absurd same other
    · exact known.1 code' old

/-- No name stands for a label of a body that is still to be built. -/
theorem added {id : MethodId} {block : MethodBlock}
    (counted : LabelsCounted s (.added id block :: pending)) :
    BodyEdit.Counts (Counted s.classes (.added id block :: pending)) id 0
      { names := ⟨s.scope, 0⟩ } := by
  refine ⟨fun e member => ?_, le_refl _, by simp, by simp⟩
  dsimp only
  split
  · rename_i same
    exact absurd (same ▸ List.mem_cons_self) ((counted.names e member).2 block)
  · exact counted.names e member

/-- The names of a body that is changed stand for labels that have been given out. -/
theorem matched {body : MethodId} {code : Code} (counted : LabelsCounted s pending)
    (isCode : (s.classes.methodAt body).code = some code) :
    BodyEdit.Counts (Counted s.classes pending) body code.nextLabel { names := ⟨s.scope,
      code.nextLabel⟩ } := by
  refine ⟨fun e member => ?_, le_refl _, by simp, by simp⟩
  dsimp only
  split
  · rename_i same
    exact (counted.names e member).1 code (same ▸ isCode)
  · exact counted.names e member

theorem step (counted : LabelsCounted s (p :: pending)) (one : BodyEdited s p t) :
    LabelsCounted t pending := by
  obtain ⟨first, others⟩ := List.pairwise_cons.1 counted.builtFirst
  have builtFirst : BuiltFirst t.classes pending := BuiltFirst.later others one
  cases one with
  | idle =>
    refine ⟨counted.bodies, fun e member => ?_, builtFirst⟩
    exact (counted.names e member).imp_right fun free block later => free block (.tail _ later)
  | @build id block type edit ran fine =>
    have counts := Moves.forM (fun l _ => BodyContext.addLine_counts rfl l) _ _ _ ran
      counted.added
    refine ⟨counted.bodies.setCode _ (counts.below Code.below_empty rfl), ?_, builtFirst⟩
    exact names_of_counts counts rfl fun block' member => first _ member id block' rfl rfl
  | @change cls handle body block type code places edit summary changes isBody isCode ran fine =>
    have below := counted.bodies body (ClassSet.hasMethod_of_code isCode) code isCode
    have counts := BodyContext.editLines_counts rfl 0 block.insns _ _ _ ran (counted.matched isCode)
    refine ⟨(counted.bodies.setCode _ (counts.below below rfl)).ofMethods rfl, ?_, builtFirst⟩
    exact names_of_counts counts rfl fun block' member =>
      first _ member body block' rfl ⟨changes, isBody⟩

theorem edits {later : ClassSet} (counted : LabelsCounted s pending)
    (edits : BodiesEdited s pending later) : later.AllBodies Code.Below := by
  induction edits with
  | stop => exact counted.bodies
  | step one _ ih => exact ih (counted.step one)

end LabelsCounted

namespace ClassSet

/-- The blocks of a script that add methods build their bodies before other blocks change them. -/
def BuildsFirst (set : ClassSet) (script : Script) (r : Resolution) : Prop :=
  ∀ applied s, (ApplyM.declare script r.assignment).run ⟨set, r.scope, {}⟩ = .ok applied s →
    BuiltFirst s.classes (applied.flatMap Prod.snd)

theorem buildsFirst_of_single {set : ClassSet} {script : Script} {r : Resolution}
    (single : ((ApplyM.declare script r.assignment).run' ⟨set, r.scope, {}⟩).map
      (fun applied => (applied.flatMap Prod.snd).length) = some 1) : set.BuildsFirst script r := by
  intro applied s ran
  delta EStateM.run' at single
  rw [ran] at single
  obtain ⟨p, isSingle⟩ := List.length_eq_one_iff.1 (Option.some.inj single)
  rw [isSingle]
  exact List.pairwise_singleton _ _

/-- Before the bodies are changed, names stand only for labels of bodies that were there before. -/
theorem labelsCounted_of_declare {set : ClassSet} {script : Script} {o : ResolveOptions}
    {r : Resolution} {applied : List (ClassChoice × List PendingBody)} {s : ApplyState}
    (wellFormed : set.WellFormed) (closed : set.AllBodies Code.Closed)
    (below : set.AllBodies Code.Below)
    (accepted : set.resolve script {} (set.verify script) o = .ok r)
    (ran : (ApplyM.declare script r.assignment).run ⟨set, r.scope, {}⟩ = .ok applied s)
    (builtFirst : set.BuildsFirst script r) : LabelsCounted s (applied.flatMap Prod.snd) := by
  have first := firstAccepted_of_resolve accepted
  have declaring : Declaring script.fieldLines AnyMethod set r.scope.labels set.HasClass
      (leftBy (ApplyM.declare script r.assignment) ⟨set, r.scope, {}⟩) :=
    .declare wellFormed first.full rfl rfl
  rw [leftBy_ok ran] at declaring
  have evolves := ((Changes.declare script r.assignment ⟨set, r.scope, {}⟩).ok ran).classes
  have fresh := (ApplyM.declare_pending first.full ran).2
  refine ⟨below.declarations declaring.steps Code.below_empty, fun e member => ?_,
    builtFirst applied s ran⟩
  rw [declaring.labels] at member
  obtain ⟨code, isCode, inside⟩ := labelsOf_of_accepts first.accepted e member
  have known := hasMethod_of_code isCode
  refine ⟨fun code' has => ?_, fun block pending => fresh _ _ pending known⟩
  rw [evolves.code e.1.body known id, isCode] at has
  obtain rfl := Option.some.inj has
  refine below e.1.body known code isCode e.2 ?_
  rcases List.mem_append.1 inside with places | uses
  · exact places
  · exact (closed e.1.body known code isCode).placed e.2 uses

theorem below_of_buildsFirst {set : ClassSet} {script : Script} {o : ResolveOptions}
    {r : Resolution} (wellFormed : set.WellFormed) (closed : set.AllBodies Code.Closed)
    (below : set.AllBodies Code.Below)
    (accepted : set.resolve script {} (set.verify script) o = .ok r)
    (builtFirst : set.BuildsFirst script r) : (set.afterApply script r).AllBodies Code.Below := by
  have first := firstAccepted_of_resolve accepted
  rcases afterApply_steps wellFormed first.full with
    ⟨s, e, -, declaring, same⟩ | ⟨applied, s, ran, declaring, edits⟩
  · rw [same]
    exact below.declarations declaring.steps Code.below_empty
  · exact (labelsCounted_of_declare wellFormed closed below accepted ran builtFirst).edits edits

theorem Attained.labelsBelow {scripts : ClassSet → Script → Resolution → Prop} {set : ClassSet}
    (attained : Attained IsRead scripts set)
    (inOrder : ∀ set script r, scripts set script r → set.BuildsFirst script r) :
    AllBodies Code.Below set := by
  refine attained.allBodies ?_ fun set script o r before below accepted chosen => ?_
  · exact fun bytes file read m member code has => (ClassFile.read_labels read m member code has).2
  · exact below_of_buildsFirst before.wellFormed before.closed below accepted
      (inOrder set script r chosen)

/-- Whatever class files are taken in and whatever scripts are applied, to their end or not: every
body places a label at most once and places the labels that it uses, so that the encoder never turns
it down because of a label that is not placed. If the scripts build added bodies before they change
them, every label has been given out. -/
theorem attained_labels {scripts : ClassSet → Script → Resolution → Prop} {set : ClassSet}
    (attained : Attained IsRead scripts set) {m : MethodId} {code : Code}
    (isBody : (set.methodAt m).code = some code) :
    code.placedLabels.Nodup ∧ (∀ l ∈ code.usedLabels, l ∈ code.placedLabels) ∧
      (∀ parameters pool e later, (Bytecode.encode code parameters).run pool = .error e later →
        e.isUnplaced = false) ∧
      ((∀ set script r, scripts set script r → set.BuildsFirst script r) →
        ∀ l ∈ code.labels, l.index < code.nextLabel) := by
  have known := hasMethod_of_code isBody
  have closed := attained.closed m known code isBody
  refine ⟨closed.once, closed.placed, fun parameters pool e later failed => ?_,
    fun inOrder l inside => ?_⟩
  · have ends := Bytecode.encode_endsPlaced closed parameters pool
    rw [failed] at ends
    exact ends
  · refine attained.labelsBelow inOrder m known code isBody l ?_
    rcases List.mem_append.1 inside with places | uses
    · exact places
    · exact closed.placed l uses

def addedLine (kind : PatternKind) (pattern : Pattern) (text : String) : InsnLine :=
  ⟨.add, kind, pattern, 4, text⟩

/-- A class block for `a/A` with blocks for a method `foo`. -/
def fooBlocks (mode : Mode) (blocks : List (Mode × List InsnLine)) : Script :=
  ⟨[⟨mode, .ordinary, ⟨"a/A", false⟩, 1, [], [], [], blocks.map fun b =>
    ⟨b.1, ⟨"foo", false⟩, "()V", ⟨[], .void⟩, false, false, false, b.2, 2⟩⟩]⟩

/-- Adds the class with a method that runs forever. -/
def addsLoop : Script :=
  fooBlocks .add [(.add, [addedLine .label (.label (.weak "L")) "+label ~L",
    addedLine (.jump Opcode.goto) (.jump Opcode.goto (.weak "L")) "+goto ~L"])]

/-- Nothing is assigned to added blocks. -/
def addsLoopFound : Resolution := ⟨{}, [⟨none, [], [none]⟩]⟩

theorem resolve_addsLoop :
    resolve {} addsLoop {} (verify {} addsLoop) {} = .ok addsLoopFound := by decide

theorem buildsFirst_addsLoop : BuildsFirst {} addsLoop addsLoopFound :=
  buildsFirst_of_single (by decide +kernel)

/-- What is left of the script that adds the loop. -/
theorem code_addsLoop : ((afterApply {} addsLoop addsLoopFound).methodAt ⟨0⟩).code =
    some { insns := [.label ⟨0⟩, .jump Opcode.goto ⟨0⟩], nextLabel := 1 } := by decide +kernel

theorem attained_labels_addsLoop :
    ∃ set code, Attained IsRead (fun set script r => set = {} ∧ script = addsLoop ∧
      r = addsLoopFound) set ∧
      (set.methodAt ⟨0⟩).code = some code ∧ code.usedLabels = [⟨0⟩] ∧ ⟨0⟩ ∈ code.placedLabels ∧
        0 < code.nextLabel := by
  have attained : Attained IsRead (fun set script r => set = {} ∧ script = addsLoop ∧
    r = addsLoopFound)
      (afterApply {} addsLoop addsLoopFound) :=
    .apply (.empty []) resolve_addsLoop ⟨rfl, rfl, rfl⟩
  obtain ⟨-, placed, -, below⟩ := attained_labels attained code_addsLoop
  refine ⟨_, _, attained, code_addsLoop, by decide, placed ⟨0⟩ (by decide), ?_⟩
  refine below (fun set script r same => ?_) ⟨0⟩ (by decide)
  obtain ⟨rfl, rfl, rfl⟩ := same
  exact buildsFirst_addsLoop

/-- Adds the class with a method that returns at once. -/
def addsFoo : Script :=
  fooBlocks .add [(.add, [addedLine .ret .ret "+return"])]

/-- Replaces the method, with a block in between that changes the body of the new one. -/
def replacesFoo : Script :=
  fooBlocks .keep [(.remove, []),
    (.keep, [addedLine .label (.label (.weak "L")) "+label ~L",
      addedLine (.jump Opcode.goto) (.jump Opcode.goto (.weak "L")) "+goto ~L"]),
    (.add, [addedLine .label (.label (.weak "L")) "+label ~L", addedLine .ret .ret "+return"])]

/-- The blocks that look for the method find the old one. -/
def replacesFooFound : Resolution := ⟨{}, [⟨some ⟨0⟩, [], [some ⟨0⟩, some ⟨0⟩, none]⟩]⟩

/-- The block in the middle binds the label to the first one of a body that is then built anew. -/
theorem attained_label_not_given_out :
    ∃ set code, Attained IsRead (fun _ _ _ => True) set ∧
      (set.methodAt ⟨1⟩).code = some code ∧ code.placedLabels = [⟨0⟩] ∧ code.nextLabel = 0 := by
  have added : Attained IsRead (fun _ _ _ => True) (afterApply {} addsFoo addsLoopFound) :=
    .apply (o := {}) (.empty []) (by decide) trivial
  have replaced : Attained IsRead (fun _ _ _ => True)
      (afterApply (afterApply {} addsFoo addsLoopFound) replacesFoo replacesFooFound) :=
    .apply (o := {}) added (by decide +kernel) trivial
  exact ⟨_, { insns := [.label ⟨0⟩, .simple 177] }, replaced, by decide +kernel, by decide, rfl⟩

end ClassSet

end JvmPatch
