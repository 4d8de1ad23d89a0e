import JvmPatch.Proofs.Apply.EveryBody
import JvmPatch.Proofs.Apply.Visibility
import JvmPatch.Proofs.ClassFile.RoundTrip
import JvmPatch.Proofs.Insn.Switches

/-! Classes that can be written. The classes, fields, methods and bodies that a script adds have
only parts that class files have, and so do those that it changes. What is stored of them can be
read again, with the same switches. -/

set_option autoImplicit false

namespace JvmPatch

namespace Access

theorem or_within {a b flags : Access} (first : a &&& flags = a) (second : b &&& flags = b) :
    (a ||| b) &&& flags = a ||| b := by
  rw [UInt16.and_comm, and_or, UInt16.and_comm flags a, UInt16.and_comm flags b, first, second]

theorem and_within {a flags : Access} (within : a &&& flags = a) (b : Access) :
    (a &&& b) &&& flags = a &&& b := by
  rw [UInt16.and_assoc, UInt16.and_comm b, ← UInt16.and_assoc, within]

end Access

theorem ClassKind.access_within (kind : ClassKind) :
    kind.access &&& Access.classFlags = kind.access := by
  cases kind <;> decide

theorem FieldLine.access_within (l : FieldLine) : l.access &&& Access.fieldFlags = l.access := by
  unfold FieldLine.access
  split <;> split <;> decide

theorem MethodBlock.access_within (block : MethodBlock) :
    block.access &&& Access.methodFlags = block.access := by
  unfold MethodBlock.access
  refine Access.or_within ?_ ?_
  · split
    · decide
    · split <;> decide
  · split <;> decide

theorem MethodBlock.accessOver_within {a : Access} (within : a &&& Access.methodFlags = a)
    (block : MethodBlock) : block.accessOver a &&& Access.methodFlags = block.accessOver a := by
  unfold MethodBlock.accessOver
  refine Access.or_within (Access.and_within within _) ?_
  split
  · exact Access.and_within block.access_within _
  · exact block.access_within

theorem forall_mem_modify {α : Type} {Q : α → Prop} {xs : Array α} (all : ∀ x ∈ xs, Q x) {f : α → α}
    (keeps : ∀ x, Q x → Q (f x)) (i : Nat) : ∀ x ∈ xs.modify i f, Q x := by
  intro x member
  obtain ⟨j, inside, rfl⟩ := Array.mem_iff_getElem.1 member
  rw [Array.getElem_modify]
  split
  · exact keeps _ (all _ (Array.getElem_mem _))
  · exact all _ (Array.getElem_mem _)

theorem forall_mem_push {α : Type} {Q : α → Prop} {xs : Array α} (all : ∀ x ∈ xs, Q x) {y : α}
    (new : Q y) : ∀ x ∈ xs.push y, Q x := by
  intro x member
  rcases Array.mem_push.1 member with member | rfl
  · exact all x member
  · exact new

namespace ClassSet

/-- Every class of the set can be written as a class file. -/
structure Writable (set : ClassSet) : Prop where
  classes : ∀ c ∈ set.classes, c.access &&& Access.classFlags = c.access
  fields : ∀ f ∈ set.fields, f.toFieldDecl.WellFormed
  methods : AllMethods (fun m => m.access &&& Access.methodFlags = m.access) set
  insns : set.AllBodies fun code => ∀ insn ∈ code.insns, insn.WellFormed
  labels : set.AllBodies fun code => code.placedLabels.Nodup

/-- The flags of classes and the fields of a set whose methods are left out of account. -/
structure WritableApart (set : ClassSet) : Prop where
  classes : ∀ c ∈ set.classes, c.access &&& Access.classFlags = c.access
  fields : ∀ f ∈ set.fields, f.toFieldDecl.WellFormed

namespace WritableApart

variable {lines : List FieldLine} {drops : MethodId → Prop} {set later : ClassSet}

theorem modifyClass (writable : set.WritableApart) {f : ClassEntry → ClassEntry}
    (same : ∀ c, (f c).access = c.access) (id : ClassId) : (set.modifyClass id f).WritableApart :=
  ⟨forall_mem_modify writable.classes (fun c h => by rwa [same]) id.index, writable.fields⟩

theorem mark (writable : set.WritableApart) (id : ClassId) : (set.mark id).WritableApart :=
  writable.modifyClass (f := fun c => { c with modified := true }) (fun _ => rfl) id

theorem ofMethods (writable : set.WritableApart) (classes : later.classes = set.classes)
    (fields : later.fields = set.fields) : later.WritableApart :=
  ⟨classes ▸ writable.classes, fields ▸ writable.fields⟩

theorem addField (writable : set.WritableApart) (id : ClassId) {f : FieldDecl}
    (formed : f.WellFormed) :
    (set.addField id f false).WritableApart := by
  refine ⟨?_, forall_mem_push writable.fields formed⟩
  exact forall_mem_modify (f := fun c => { c with fields := c.fields ++ [set.nextField] })
    writable.classes (fun _ h => h) id.index

theorem removeField (writable : set.WritableApart) (id : FieldId) :
    (set.removeField id).WritableApart := by
  constructor
  · exact forall_mem_modify (f := fun c => { c with fields := c.fields.filter (· != id) })
      writable.classes (fun _ h => h) _
  · exact forall_mem_modify (f := fun f => { f with hidden := true }) writable.fields
      (fun _ h => h) id.index

theorem addMethod (writable : set.WritableApart) (id : ClassId) (m : MethodDecl) :
    (set.addMethod id m false).WritableApart := by
  refine ⟨?_, writable.fields⟩
  exact forall_mem_modify (f := fun c => { c with
    methods := c.methods ++ [set.nextMethod], view := c.view ++ [set.nextMethod] })
      writable.classes (fun _ h => h) id.index

theorem removeMethod (writable : set.WritableApart) (id : MethodId) :
    (set.removeMethod id).WritableApart := by
  refine ⟨fun c member => ?_, writable.fields⟩
  obtain ⟨c', inside, rfl⟩ := Array.mem_map.1 member
  exact writable.classes c' inside

theorem declaration (writable : set.WritableApart) (read : ∀ l ∈ lines, l.IsRead)
    (step : Declaration lines drops set later) : later.WritableApart := by
  cases step with
  | addClass name kind =>
    exact ⟨forall_mem_push writable.classes kind.access_within, writable.fields⟩
  | header id f same => exact writable.modifyClass (fun c => (same c).2) id
  | @addField id l name desc line =>
    exact (writable.addField id ⟨l.access_within, (read l line).value_ne⟩).mark id
  | removeField id => exact (writable.removeField id).mark _
  | addMethod id block name desc => exact (writable.addMethod id _).mark id
  | removeMethod id _ => exact (writable.removeMethod id).mark _
  | rewriteAccess id block =>
    have rewritten : ∀ f, (set.modifyMethod id f).WritableApart :=
      fun _ => writable.ofMethods rfl rfl
    exact (rewritten _).mark _

theorem bodyEdited {s t : ApplyState} {p : PendingBody} (writable : s.classes.WritableApart)
    (one : BodyEdited s p t) : t.classes.WritableApart := by
  have kept : ∀ id f, (s.classes.modifyMethod id f).WritableApart :=
    fun _ _ => writable.ofMethods rfl rfl
  cases one with
  | idle => exact writable
  | build => exact kept _ _
  | change => exact (kept _ _).mark _

end WritableApart

theorem WritableApart.afterApply {set : ClassSet} {script : Script} {r : Resolution}
    (writable : set.WritableApart) (wellFormed : set.WellFormed)
    (full : set.FullAssignment script r.assignment) (read : ∀ l ∈ script.fieldLines, l.IsRead) :
    (set.afterApply script r).WritableApart := by
  have declared : ∀ later, Declaration.Steps script.fieldLines AnyMethod set later →
      later.WritableApart := by
    intro later steps
    induction steps with
    | refl => exact writable
    | tail _ step ih => exact ih.declaration read step
  rcases afterApply_steps wellFormed full with
    ⟨s, e, -, declaring, same⟩ | ⟨applied, s, -, declaring, edits⟩
  · rw [same]
    exact declared _ declaring.steps
  · have before := declared _ declaring.steps
    clear declared declaring
    generalize applied.flatMap Prod.snd = pending, set.afterApply script r = later at edits
    induction edits with
    | stop => exact before
    | step one _ ih => exact ih (before.bodyEdited one)

/-- Applying a script, to its end or not, leaves classes that can be written if the switches that it
adds are well-formed. -/
theorem Writable.afterApply {set : ClassSet} {script : Script} {r : Resolution}
    (writable : set.Writable) (wellFormed : set.WellFormed)
    (full : set.FullAssignment script r.assignment) (read : ∀ c ∈ script.classes, c.IsRead)
    (formed : ∀ l ∈ script.addedLines, l.pattern.SwitchFormed) :
    (set.afterApply script r).Writable := by
  have apart := WritableApart.afterApply ⟨writable.classes, writable.fields⟩ wellFormed full
    fun l line => by
      obtain ⟨c, member, line⟩ := List.mem_flatMap.1 line
      exact (read c member).fields l line
  refine ⟨apart.classes, apart.fields, ?flags, ?insns, ?labels⟩
  case flags =>
    have declared : ∀ later, Declaration.Steps script.fieldLines AnyMethod set later →
        later.AllMethods fun m => m.access &&& Access.methodFlags = m.access := by
      intro later steps
      induction steps with
      | refl => exact writable.methods
      | tail _ step ih =>
        refine Declaration.allMethods ih step ?_ (fun _ h => h) ?_
        · exact fun m block within => block.accessOver_within within
        · exact fun id block name desc _ => block.access_within
    rcases afterApply_steps wellFormed full with
      ⟨s, e, -, declaring, same⟩ | ⟨applied, s, -, declaring, edits⟩
    · rw [same]
      exact declared _ declaring.steps
    · exact edits.allMethods (declared _ declaring.steps) fun _ _ h => h
  case insns =>
    refine writable.insns.afterApply wellFormed full read fun l added insn gives => ?_
    exact gives.wellFormed (Script.isRead_of_addedLines read added).1.isRegular (formed l added)
  case labels =>
    refine writable.labels.afterApply_of_checked wellFormed full .nil fun code fine => ?_
    exact (Code.closed_of_checkLabels fine).once

theorem classAt_of_forall {Q : ClassEntry → Prop} {set : ClassSet} (all : ∀ c ∈ set.classes, Q c)
    (other : Q default) (id : ClassId) : Q (set.classAt id) := by
  rw [classAt]
  cases found : set.classes[id.index]? with
  | none => exact other
  | some c => exact all c (Array.mem_of_getElem? found)

theorem fieldAt_of_forall {Q : FieldEntry → Prop} {set : ClassSet} (all : ∀ f ∈ set.fields, Q f)
    (other : Q default) (id : FieldId) : Q (set.fieldAt id) := by
  rw [fieldAt]
  cases found : set.fields[id.index]? with
  | none => exact other
  | some f => exact all f (Array.mem_of_getElem? found)

theorem AllMethods.methodAt {Q : MethodEntry → Prop} {set : ClassSet} (all : set.AllMethods Q)
    (other : Q default) (id : MethodId) : Q (set.methodAt id) := by
  by_cases known : set.HasMethod id
  · exact all id known
  · rw [ClassSet.methodAt, Array.getElem?_eq_none (Nat.not_lt.1 known)]
    exact other

theorem Writable.classFile {set : ClassSet} (writable : set.Writable) (id : ClassId) :
    (set.classFile id).WellFormed := by
  refine ⟨classAt_of_forall writable.classes (by decide) id, fun f member => ?_, fun m member => ?_⟩
  · obtain ⟨field, -, rfl⟩ := List.mem_map.1 member
    exact fieldAt_of_forall (Q := fun f => f.toFieldDecl.WellFormed) writable.fields
      ⟨by decide, fun _ => nofun⟩ field
  · obtain ⟨method, -, rfl⟩ := List.mem_map.1 member
    refine ⟨writable.methods.methodAt (by decide) method, fun code has => ?_⟩
    have known := hasMethod_of_code has
    exact ⟨writable.insns method known code has, writable.labels method known code has⟩

/-- A class that has been modified is stored in a form that can be read, and what is read has the
same switches. -/
theorem Writable.read_store {set : ClassSet} (writable : set.Writable) {id : ClassId}
    {bytes : Bytes} (modified : (set.classAt id).modified = true)
    (stored : set.store id = .ok bytes) :
    ∃ file, ClassFile.read bytes = .ok file ∧ (set.classFile id).Renders file := by
  rw [store, if_pos modified] at stored
  cases encoded : (set.classFile id).encode with
  | error e =>
    rw [encoded] at stored
    cases stored
  | ok content =>
    rw [encoded] at stored
    cases stored
    obtain ⟨raw, -, -, reads⟩ := ClassFile.split_encode encoded
    exact reads (writable.classFile id)

/-- If all switches are well-formed and a script adds only well-formed ones, then they are
well-formed after it has been applied, to its end or not. If moreover every class could be written
before, what is stored of a modified class is read with the same switches. -/
theorem afterApply_switches {set : ClassSet} {text : String} {script : Script} {o : ResolveOptions}
    {r : Resolution} (wellFormed : set.WellFormed) (parsed : Script.parse text = .ok script)
    (accepted : set.resolve script {} (set.verify script) o = .ok r)
    (formed : set.AllBodies Code.SwitchesFormed)
    (added : ∀ l ∈ script.addedLines, l.pattern.SwitchFormed) :
    (set.afterApply script r).AllBodies Code.SwitchesFormed ∧
      (set.Writable → ∀ id bytes, ((set.afterApply script r).classAt id).modified = true →
        (set.afterApply script r).store id = .ok bytes →
          ∃ file, ClassFile.read bytes = .ok file ∧
            List.Forall₂ MethodDecl.SameSwitches ((set.afterApply script r).classFile id).methods
              file.methods) := by
  have full := (firstAccepted_of_resolve accepted).full
  have read := Script.parse_isRead parsed
  constructor
  · refine AllBodies.afterApply formed wellFormed full read fun l isAdded insn gives => ?_
    exact gives.switchFormed (added l isAdded)
  · intro writable id bytes modified stored
    have later := writable.afterApply wellFormed full read added
    obtain ⟨file, isRead, renders⟩ := later.read_store modified stored
    exact ⟨file, isRead, renders.methods.imp fun _ _ => MethodDecl.Renders.sameSwitches⟩

theorem writable_empty : Writable {} :=
  ⟨by simp, by simp, .empty _ [], .empty _ [], .empty _ []⟩

/-- Adds a class with a method that has a table switch with one target. -/
def addsSwitch (low high : String) : String :=
  "+class a/A\n+method foo ()V\n+push-int 1\n+switch-table " ++ low ++ " " ++ high ++
    " ~L\n~L\n+end-switch-table\n+label ~L\n+return\n+end-method\n+end-class\n"

/-- The script with that text, in which the line of the switch reads as given. -/
def switchScript (low high : Int32) (line : String) : Script :=
  ⟨[⟨.add, .ordinary, ⟨"a/A", false⟩, 1, [], [], [],
    [⟨.add, ⟨"foo", false⟩, "()V", ⟨[], .void⟩, false, false, false,
      [⟨.add, .pushInt, .pushInt (.is 1), 3, "+push-int 1"⟩,
        ⟨.add, .switchTable, .tableSwitch (.is low) (.is high) (.weak "L") [.weak "L"], 4, line⟩,
        ⟨.add, .label, .label (.weak "L"), 7, "+label ~L"⟩,
        ⟨.add, .ret, .ret, 8, "+return"⟩], 2⟩]⟩]⟩

/-- Nothing is assigned to added blocks. -/
def switchFound : Resolution := ⟨{}, [⟨none, [], [none]⟩]⟩

theorem afterApply_switches_single :
    ∃ script bytes file, Script.parse (addsSwitch "1" "1") = .ok script ∧
      resolve {} script {} (verify {} script) {} = .ok switchFound ∧
        (afterApply {} script switchFound).AllBodies Code.SwitchesFormed ∧
          (afterApply {} script switchFound).store ⟨0⟩ = .ok bytes ∧
            ClassFile.read bytes = .ok file ∧
            List.Forall₂ MethodDecl.SameSwitches
              ((afterApply {} script switchFound).classFile ⟨0⟩).methods
              file.methods := by
  have parsed : Script.parse (addsSwitch "1" "1") =
      .ok (switchScript 1 1 "+switch-table 1 1 ~L") := by
    have chars := @String.toList_ofList
    exact Script.parse_of_toList
      (Script.toList_append_of (Script.toList_append_of (Script.toList_append_of
      (Script.toList_append_of chars chars) chars) chars) chars) (by decide +kernel)
  have accepted : resolve {} (switchScript 1 1 "+switch-table 1 1 ~L") {}
      (verify {} (switchScript 1 1 "+switch-table 1 1 ~L")) {} = .ok switchFound := by decide
  have added : ∀ l ∈ (switchScript 1 1 "+switch-table 1 1 ~L").addedLines,
      l.pattern.SwitchFormed := by
    have targets : (1 : Int32).toInt - (1 : Int32).toInt + 1 =
        ([LabelRef.weak "L"].length : Int) := by
      decide
    intro l member
    simp only [switchScript, Script.addedLines, List.flatMap_cons, List.flatMap_nil,
      List.append_nil] at member
    rcases (List.mem_filter.1 member).1 with _ | ⟨_, _ | ⟨_, _ | ⟨_, _ | ⟨_, none⟩⟩⟩⟩
    exacts [trivial, targets, trivial, trivial, absurd none List.not_mem_nil]
  obtain ⟨formed, stores⟩ :=
    afterApply_switches (wellFormed_empty []) parsed accepted (.empty _ []) added
  have written : ((afterApply {} (switchScript 1 1 "+switch-table 1 1 ~L") switchFound).store
      ⟨0⟩).toOption.isSome = true := by decide +kernel
  cases stored : (afterApply {} (switchScript 1 1 "+switch-table 1 1 ~L") switchFound).store
    ⟨0⟩ with
  | error e => simp [stored, Except.toOption] at written
  | ok bytes =>
    obtain ⟨file, isRead, same⟩ := stores writable_empty ⟨0⟩ bytes (by decide +kernel) stored
    exact ⟨_, bytes, file, parsed, accepted, formed, stored, isRead, same⟩

/-- A table switch can be added that lacks targets, and what is stored of its class cannot be
read. -/
theorem afterApply_switch_without_targets :
    ∃ script bytes, Script.parse (addsSwitch "0" "5") = .ok script ∧
      resolve {} script {} (verify {} script) {} = .ok switchFound ∧
        (apply {} script switchFound).toOption.isSome = true ∧
          ¬(afterApply {} script switchFound).AllBodies Code.SwitchesFormed ∧
            (afterApply {} script switchFound).store ⟨0⟩ = .ok bytes ∧
              (ClassFile.read bytes).toOption = none := by
  have parsed : Script.parse (addsSwitch "0" "5") =
      .ok (switchScript 0 5 "+switch-table 0 5 ~L") := by
    have chars := @String.toList_ofList
    exact Script.parse_of_toList
      (Script.toList_append_of (Script.toList_append_of (Script.toList_append_of
      (Script.toList_append_of chars chars) chars) chars) chars) (by decide +kernel)
  have body : ((afterApply {} (switchScript 0 5 "+switch-table 0 5 ~L") switchFound).methodAt
      ⟨0⟩).code = some ⟨0, 0,
      [.push (.int 1), .tableSwitch 0 5 ⟨0⟩ [⟨0⟩], .label ⟨0⟩, .simple 177], [],
        1⟩ := by decide +kernel
  have written : ((afterApply {} (switchScript 0 5 "+switch-table 0 5 ~L") switchFound).store
      ⟨0⟩).toOption.any (fun bytes => (ClassFile.read bytes).toOption.isNone) = true := by
        decide +kernel
  cases stored : (afterApply {} (switchScript 0 5 "+switch-table 0 5 ~L") switchFound).store
    ⟨0⟩ with
  | error e => simp [stored, Except.toOption] at written
  | ok bytes =>
    rw [stored] at written
    refine ⟨_, bytes, parsed, by decide +kernel, by decide +kernel, fun formed => ?_, stored,
      by simpa [Except.toOption] using written⟩
    have targets : (5 : Int32).toInt - (0 : Int32).toInt + 1 = ([(⟨0⟩ : Label)].length : Int) :=
      formed ⟨0⟩ (hasMethod_of_code body) _ body (.tableSwitch 0 5 ⟨0⟩ [⟨0⟩]) (by simp)
    exact absurd targets (by decide)

end ClassSet

end JvmPatch
