import JvmPatch.Proofs.Apply.Building
import JvmPatch.Proofs.Apply.Transitions
import JvmPatch.Proofs.Pattern.Giving
import JvmPatch.Proofs.Script.Parsing

/-! What holds of the bodies of all methods, and what holds of the instructions in them. A body that
a script builds or changes has old instructions and those that lines of the script add. -/

set_option autoImplicit false

namespace JvmPatch

namespace Code

theorem placedAgain?_eq_none {seen ls : List Label} (none : placedAgain? seen ls = none) :
    ls.Nodup ∧ ∀ l ∈ ls, l ∉ seen := by
  induction ls generalizing seen with
  | nil => exact ⟨.nil, fun _ member => nomatch member⟩
  | cons l ls ih =>
    rw [placedAgain?] at none
    split at none
    · cases none
    · rename_i free
      obtain ⟨nodup, others⟩ := ih none
      refine ⟨List.nodup_cons.2 ⟨fun again => ?_, nodup⟩, fun l' member seen' => ?_⟩
      · exact others l again List.mem_cons_self
      · rcases List.mem_cons.1 member with rfl | member
        · exact free (by simpa using seen')
        · exact others l' member (.tail _ seen')

/-- A body whose labels have been checked places them once and uses no others. -/
theorem closed_of_checkLabels {code : Code} (fine : code.checkLabels = .ok ()) : code.Closed := by
  unfold checkLabels at fine
  split at fine
  · cases fine
  · rename_i once
    split at fine
    · cases fine
    · rename_i all
      refine ⟨(placedAgain?_eq_none once).1, fun l used => ?_⟩
      simpa using List.find?_eq_none.1 all l used

end Code

namespace ClassSet

/-- Something holds of all bodies, those of methods included that no class lists any more. -/
abbrev AllBodies (P : Code → Prop) (set : ClassSet) : Prop :=
  AllMethods (fun m => ∀ code, m.code = some code → P code) set

namespace AllBodies

variable {P : Code → Prop} {set later : ClassSet}

theorem intake (all : AllBodies P set) (steps : Intake.Steps set later)
    (read : ∀ bytes file, ClassFile.read bytes = .ok file → ∀ m ∈ file.methods, ∀ code,
      m.code = some code → P code) : AllBodies P later := by
  induction steps with
  | refl => exact all
  | tail _ step ih => exact AllMethods.intake ih step (fun _ _ h => h) read

theorem declarations {lines : List FieldLine} {drops : MethodId → Prop} (all : AllBodies P set)
    (steps : Declaration.Steps lines drops set later) (empty : P {}) : AllBodies P later := by
  induction steps with
  | refl => exact all
  | tail _ step ih =>
    refine Declaration.allMethods ih step (fun _ _ h => h) (fun _ h => h)
      fun id block name desc _ code has => ?_
    obtain rfl := Option.some.inj has
    exact empty

theorem setCode {code : Code} (all : AllBodies P set) (id : MethodId) (holds : P code) :
    AllBodies P (set.modifyMethod id fun m => { m with code := some code }) := by
  refine AllMethods.modifyMethod (f := fun m => { m with code := some code }) all
    (fun m _ code' has => ?_) id
  obtain rfl := Option.some.inj has
  exact holds

/-- A step of the body phase keeps what holds of all bodies if it holds of the one it makes. -/
theorem edited {s t : ApplyState} {p : PendingBody} (all : AllBodies P s.classes)
    (one : BodyEdited s p t)
    (build : ∀ id block type edit, p = .added id block →
      (block.insns.forM (BodyContext.addLine ⟨s.classes, id, type⟩)).run { names := ⟨s.scope, 0⟩ } =
        .ok () edit → (edit.apply {}).checkLabels = .ok () → P (edit.apply {}))
    (change : ∀ cls handle block body type code places edit, p = .matched cls handle block →
      (s.classes.methodAt body).code = some code →
      (BodyContext.editLines ⟨s.classes, body, type⟩ code.insns places 0 block.insns).run
        { names := ⟨s.scope, code.nextLabel⟩ } = .ok () edit →
      (edit.apply code).checkLabels = .ok () → P (edit.apply code)) :
    AllBodies P t.classes := by
  cases one with
  | idle => exact all
  | build ran fine => exact all.setCode _ (build _ _ _ _ rfl ran fine)
  | change _ _ isCode ran fine =>
    exact (all.setCode _ (change _ _ _ _ _ _ _ _ rfl isCode ran fine)).ofMethods rfl

end AllBodies

/-- Something holds of all bodies after a script has been applied, to its end or not, if it held
before and if it holds of bodies whose labels have been checked. -/
theorem AllBodies.afterApply_of_checked {P : Code → Prop} {set : ClassSet} {script : Script}
    {r : Resolution} (all : AllBodies P set) (wellFormed : set.WellFormed)
    (full : set.FullAssignment script r.assignment) (empty : P {})
    (checked : ∀ code : Code, code.checkLabels = .ok () → P code) :
    AllBodies P (set.afterApply script r) := by
  rcases afterApply_steps wellFormed full with
    ⟨s, e, -, declaring, same⟩ | ⟨applied, s, -, declaring, edits⟩
  · rw [same]
    exact all.declarations declaring.steps empty
  · have declared := all.declarations declaring.steps empty
    clear all declaring
    generalize applied.flatMap Prod.snd = pending, set.afterApply script r = later at edits
    induction edits with
    | stop => exact declared
    | step one _ ih =>
      exact ih (declared.edited one (fun _ _ _ _ _ _ fine => checked _ fine)
        fun _ _ _ _ _ _ _ _ _ _ _ fine => checked _ fine)

def IsRead (file : ClassFile) : Prop := ∃ bytes, ClassFile.read bytes = .ok file

/-- Something holds of all bodies that a run can come to if it holds of those that are read, and if
applying a script keeps it. -/
theorem Attained.allBodies {P : Code → Prop} {scripts : ClassSet → Script → Resolution → Prop}
    {set : ClassSet} (attained : Attained IsRead scripts set)
    (read : ∀ bytes file, ClassFile.read bytes = .ok file → ∀ m ∈ file.methods, ∀ code,
      m.code = some code → P code)
    (apply : ∀ set script o r, Attained IsRead scripts set → AllBodies P set →
      set.resolve script {} (set.verify script) o = .ok r → scripts set script r →
      AllBodies P (set.afterApply script r)) : AllBodies P set := by
  induction attained with
  | empty classpath => exact .empty _ classpath
  | insert _ isRead inserted ih =>
    obtain ⟨bytes, isFile⟩ := isRead
    exact AllMethods.insert? ih inserted (read bytes _ isFile)
  | load name _ ih => exact ih.intake (preserves_iff.1 (Intake.load name) _ .refl) read
  | shareInherited _ ih => exact ih.intake (preserves_iff.1 Intake.shareInherited _ .refl) read
  | loadMentioned _ ih => exact ih.intake (preserves_iff.1 Intake.loadMentioned _ .refl) read
  | apply before accepted chosen ih => exact apply _ _ _ _ before ih accepted chosen

end ClassSet

/-! ## Instructions -/

section Instructions

variable {Q : Insn → Prop}

theorem BodyContext.addLine_brings {cx : BodyContext} {l : InsnLine}
    (gives : ∀ insn, l.pattern.Gives insn → Q insn) :
    KeepsIfOk (fun e : BodyEdit => ∀ i ∈ e.inserted, Q i.2) (cx.addLine l) := by
  intro e _ t h holds
  rcases addLine_ok h with ⟨-, region, names, ran, rfl⟩ | ⟨-, insn, names, ran, rfl⟩
  · exact holds
  · refine List.forall_mem_append.2 ⟨holds, List.forall_mem_singleton.2 ?_⟩
    exact gives insn (cx.instantiate_gives l.pattern _ _ _ ran)

theorem BodyEdit.forall_insns_apply {e : BodyEdit} {code : Code} (old : ∀ insn ∈ code.insns, Q insn)
    (brought : ∀ i ∈ e.inserted, Q i.2) : ∀ insn ∈ (e.apply code).insns, Q insn := by
  intro insn member
  rcases mem_weave member with kept | ⟨i, inside, rfl⟩
  · exact old insn kept
  · exact brought i inside

def PendingBody.Adds (l : InsnLine) : PendingBody → Prop
  | .added _ block => l ∈ block.insns
  | .matched _ _ block => l ∈ block.insns ∧ l.mode = .add

theorem BodyEdited.allInsns {s t : ApplyState} {p : PendingBody}
    (all : s.classes.AllBodies fun code => ∀ insn ∈ code.insns, Q insn) (one : BodyEdited s p t)
    (gives : ∀ l, p.Adds l → ∀ insn, l.pattern.Gives insn → Q insn) :
    t.classes.AllBodies fun code => ∀ insn ∈ code.insns, Q insn := by
  refine all.edited one ?_ ?_
  · rintro id block type edit rfl ran -
    refine BodyEdit.forall_insns_apply (by simp) ?_
    have adds : KeepsIfOk (fun e : BodyEdit => ∀ i ∈ e.inserted, Q i.2)
        (block.insns.forM (BodyContext.addLine ⟨s.classes, id, type⟩)) :=
      .forM fun l member => BodyContext.addLine_brings (gives l member)
    exact adds _ _ _ ran (by simp)
  · rintro cls handle block body type code places edit rfl isCode ran -
    have known := ClassSet.hasMethod_of_code isCode
    refine BodyEdit.forall_insns_apply (all body known code isCode) ?_
    have adds : KeepsIfOk (fun e : BodyEdit => ∀ i ∈ e.inserted, Q i.2)
        (BodyContext.editLines ⟨s.classes, body, type⟩ code.insns places 0 block.insns) :=
      BodyContext.editLines_keepsIfOk (fun e t same holds => by rwa [same.2.1])
        (fun l member mode => BodyContext.addLine_brings (gives l ⟨member, mode⟩)) 0
    exact adds _ _ _ ran (by simp)

theorem BodiesEdited.allInsns {s : ApplyState} {pending : List PendingBody} {later : ClassSet}
    (all : s.classes.AllBodies fun code => ∀ insn ∈ code.insns, Q insn)
    (edits : BodiesEdited s pending later)
    (gives : ∀ p ∈ pending, ∀ l, p.Adds l → ∀ insn, l.pattern.Gives insn → Q insn) :
    later.AllBodies fun code => ∀ insn ∈ code.insns, Q insn := by
  induction edits with
  | stop => exact all
  | step one _ ih =>
    exact ih (one.allInsns all (gives _ List.mem_cons_self)) fun p member =>
      gives p (.tail _ member)

end Instructions

def Script.addedLines (script : Script) : List InsnLine :=
  (script.classes.flatMap ClassBlock.methods).flatMap fun block =>
    block.insns.filter (·.mode == .add)

theorem Script.isRead_of_addedLines {script : Script} (read : ∀ c ∈ script.classes, c.IsRead)
    {l : InsnLine} (added : l ∈ script.addedLines) : l.IsRead ∧ l.mode = .add := by
  obtain ⟨block, isBlock, isLine⟩ := List.mem_flatMap.1 added
  obtain ⟨c, isClass, isBlock⟩ := List.mem_flatMap.1 isBlock
  obtain ⟨isLine, mode⟩ := List.mem_filter.1 isLine
  exact ⟨((read c isClass).methods block isBlock).insns l isLine, eq_of_beq mode⟩

namespace ApplyM

variable {s t : ApplyState}

theorem applyMethod_adds {owner : ClassBlock} {id : ClassId} {block : MethodBlock}
    {choice : Option MethodId} {y : Option MethodId × List PendingBody}
    (h : (applyMethod owner id block choice).run s = .ok y t) {p : PendingBody} (member : p ∈ y.2)
    {l : InsnLine} (adds : p.Adds l) : l ∈ block.insns ∧ (block.mode = .add ∨ l.mode = .add) := by
  unfold applyMethod at h
  split at h
  · obtain ⟨method, u, -, h⟩ := run_bind_ok h
    cases h
    obtain rfl := List.mem_singleton.1 member
    exact ⟨adds, .inl ‹_›⟩
  · obtain ⟨handle, u, -, h⟩ := run_bind_ok h
    obtain ⟨start, v, -, h⟩ := run_bind_ok h
    obtain ⟨_, w, -, h⟩ := run_bind_ok h
    obtain ⟨_, x, -, h⟩ := run_bind_ok h
    cases h
    exact nomatch member
  · obtain ⟨handle, u, -, h⟩ := run_bind_ok h
    obtain ⟨_, v, -, h⟩ := run_bind_ok h
    cases h
    obtain rfl := List.mem_singleton.1 member
    exact ⟨adds.1, .inr adds.2⟩

theorem applyClass_adds {e : ClassBlock × ClassChoice} {y : ClassChoice × List PendingBody}
    (h : (applyClass e.1 e.2).run s = .ok y t) {p : PendingBody} (member : p ∈ y.2) {l : InsnLine}
    (adds : p.Adds l) :
    ∃ block ∈ e.1.methods, l ∈ block.insns ∧ (block.mode = .add ∨ l.mode = .add) := by
  obtain ⟨id, u, -, h⟩ := run_bind_ok h
  split at h
  · obtain ⟨_, v, -, h⟩ := run_bind_ok h
    cases h
    exact nomatch member
  · obtain ⟨_, v, -, h⟩ := run_bind_ok h
    obtain ⟨_, w, -, h⟩ := run_bind_ok h
    obtain ⟨fields, x, -, h⟩ := run_bind_ok h
    obtain ⟨methods, z, ran, h⟩ := run_bind_ok h
    cases h
    obtain ⟨r, inside, member⟩ := List.mem_flatMap.1 member
    have steps := run_mapM_ok (fun m _ => .applyMethod _ _ _ _) ran
    obtain ⟨m, ofZip, u', v', -, step⟩ := exists_mem_of_mem_right steps inside
    exact ⟨m.1, (List.of_mem_zip ofZip).1, applyMethod_adds step member adds⟩

/-- What is added to the bodies that remain to be changed are added lines of the script. -/
theorem mem_addedLines_of_declare {script : Script} {a : Assignment}
    {applied : List (ClassChoice × List PendingBody)} (read : ∀ c ∈ script.classes, c.IsRead)
    (h : (declare script a).run s = .ok applied t) {p : PendingBody}
    (member : p ∈ applied.flatMap Prod.snd) {l : InsnLine} (adds : p.Adds l) :
    l ∈ script.addedLines := by
  obtain ⟨blocks, u, added, steps⟩ := run_bind_ok h
  have results := run_mapM_ok (fun e _ => .applyClass e.1 e.2) steps
  obtain ⟨y, inside, member⟩ := List.mem_flatMap.1 member
  obtain ⟨e, isBlock, v, w, -, step⟩ := exists_mem_of_mem_right results inside
  obtain ⟨b, isClass, prepared⟩ := exists_mem_of_mem_right (addClasses_ok added) isBlock
  obtain ⟨block, isMethod, isLine, mode⟩ := applyClass_adds step member adds
  have ofScript : b.1 ∈ script.classes := (List.of_mem_zip isClass).1
  rw [prepared.block] at isMethod
  refine List.mem_flatMap.2 ⟨block, List.mem_flatMap.2 ⟨b.1, ofScript, isMethod⟩, ?_⟩
  refine List.mem_filter.2 ⟨isLine, ?_⟩
  have isAdded : l.mode = .add := by
    rcases mode with mode | mode
    · have nested := ((read _ ofScript).methods block isMethod).nested l isLine
      exact (nested (by simp [mode])).trans mode
    · exact mode
  simp [isAdded]

end ApplyM

namespace ClassSet

/-- Something holds of all instructions after a script has been applied, to its end or not, if it
held before and if it holds of what the script's lines can add. -/
theorem AllBodies.afterApply {Q : Insn → Prop} {set : ClassSet} {script : Script} {r : Resolution}
    (all : set.AllBodies fun code => ∀ insn ∈ code.insns, Q insn) (wellFormed : set.WellFormed)
    (full : set.FullAssignment script r.assignment) (read : ∀ c ∈ script.classes, c.IsRead)
    (gives : ∀ l ∈ script.addedLines, ∀ insn, l.pattern.Gives insn → Q insn) :
    (set.afterApply script r).AllBodies fun code => ∀ insn ∈ code.insns, Q insn := by
  rcases afterApply_steps wellFormed full with
    ⟨s, e, -, declaring, same⟩ | ⟨applied, s, ran, declaring, edits⟩
  · rw [same]
    exact all.declarations declaring.steps (by simp)
  · refine edits.allInsns (all.declarations declaring.steps (by simp)) fun p member l adds => ?_
    exact gives l (ApplyM.mem_addedLines_of_declare read ran member adds)

end ClassSet

end JvmPatch
