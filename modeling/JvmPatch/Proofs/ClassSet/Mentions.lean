import JvmPatch.ClassFile.Writer
import JvmPatch.Proofs.ClassSet.Supply
import JvmPatch.Proofs.Descriptor
import JvmPatch.Proofs.Renumbering.Insertion
import JvmPatch.Proofs.Resolve.Completeness
import JvmPatch.Proofs.Scope.Types

/-! The classes that a class mentions. Once they have been taken from the classpath, or have got
stubs, all of them are there, and a weak name can be bound to each. -/

set_option autoImplicit false

namespace JvmPatch

/-! ### What mentions a class -/

/-- A well-formed descriptor has a class in it, maybe as the innermost element of an array. -/
inductive DescriptorMentions (desc : String) : String → Prop
  | type {t : TypeDesc} {name : String} : TypeDesc.parse desc = .ok t → t.base = .object name →
      DescriptorMentions desc name
  | method {m : MethodDesc} {t : TypeDesc} {name : String} : MethodDesc.parse desc = .ok m →
      t ∈ m.params ++ [m.result] → t.base = .object name → DescriptorMentions desc name

/-- The operand of an instruction is a class or an array of it. -/
inductive OperandMentions (operand : String) : String → Prop
  | plain : operand.toList.head? ≠ some '[' → OperandMentions operand operand
  | array {name : String} : operand.toList.head? = some '[' → DescriptorMentions operand name →
      OperandMentions operand name

/-- An instruction has a class in one of its operands. -/
inductive Insn.Mentions : Insn → String → Prop
  | fieldOwner {op : Opcode} {owner member desc name : String} : OperandMentions owner name →
      Mentions (.field op owner member desc) name
  | fieldType {op : Opcode} {owner member desc name : String} : DescriptorMentions desc name →
      Mentions (.field op owner member desc) name
  | methodOwner {op : Opcode} {owner member desc name : String} {isInterface : Bool} :
      OperandMentions owner name → Mentions (.invoke op owner member desc isInterface) name
  | methodType {op : Opcode} {owner member desc name : String} {isInterface : Bool} :
      DescriptorMentions desc name → Mentions (.invoke op owner member desc isInterface) name
  | type {op : Opcode} {operand name : String} : OperandMentions operand name →
      Mentions (.type op operand) name
  | constant {operand name : String} : OperandMentions operand name →
      Mentions (.push (.classRef operand)) name
  | multiNewArray {desc name : String} {dims : UInt8} : DescriptorMentions desc name →
      Mentions (.multiNewArray desc dims) name

/-- A class has another as a supertype, or in its members. -/
inductive ClassSet.Mentions (set : ClassSet) (id : ClassId) : String → Prop
  | supertype {name : String} : name ∈ (set.classAt id).supertypes → Mentions set id name
  | field {f : FieldId} {name : String} : f ∈ (set.classAt id).fields →
      DescriptorMentions (set.fieldAt f).desc name → Mentions set id name
  | method {m : MethodId} {name : String} : m ∈ (set.classAt id).methods →
      DescriptorMentions (set.methodAt m).desc name → Mentions set id name
  | insn {m : MethodId} {code : Code} {insn : Insn} {name : String} : m ∈ (set.classAt id).methods →
      (set.methodAt m).code = some code → insn ∈ code.insns → insn.Mentions name →
        Mentions set id name
  | catchType {m : MethodId} {code : Code} {r : Region} {name : String} :
      m ∈ (set.classAt id).methods →
      (set.methodAt m).code = some code → r ∈ code.regions → r.catchType = some name →
        Mentions set id name

theorem TypeDesc.mem_classNames {t : TypeDesc} {name : String} : name ∈ t.classNames ↔
    t.base = .object name := by
  unfold classNames
  split
  · rename_i other same
    rw [List.mem_singleton, same, BaseType.object.injEq, eq_comm]
  · rename_i other
    exact ⟨nofun, fun same => absurd same (other name)⟩

theorem MethodDesc.mem_classNames {m : MethodDesc} {name : String} :
    name ∈ m.classNames ↔ ∃ t ∈ m.params ++ [m.result], t.base = .object name := by
  simp only [classNames, List.mem_append, List.mem_flatMap, TypeDesc.mem_classNames,
    List.mem_singleton, or_and_right, exists_or, exists_eq_left]

theorem mem_descriptorClasses {desc name : String} : name ∈ descriptorClasses desc ↔
    DescriptorMentions desc name := by
  unfold descriptorClasses
  split
  · rename_i s start
    have noType (t : TypeDesc) : TypeDesc.parse desc ≠ .ok t := by
      rw [TypeDesc.parse, start]
      intro isType
      cases isType
    cases parsed : MethodDesc.parse desc with
    | error e =>
      refine ⟨fun member => (List.not_mem_nil member).elim, fun mentions => ?_⟩
      cases mentions with
      | type isType => exact absurd isType (noType _)
      | method isMethod => cases parsed.symm.trans isMethod
    | ok m =>
      change name ∈ m.classNames ↔ _
      rw [MethodDesc.mem_classNames]
      constructor
      · rintro ⟨t, member, named⟩
        exact .method parsed member named
      · intro mentions
        cases mentions with
        | type isType => exact absurd isType (noType _)
        | method isMethod member named =>
          exact ⟨_, Except.ok.inj (parsed.symm.trans isMethod) ▸ member, named⟩
  · rename_i other
    have noMethod (m : MethodDesc) : MethodDesc.parse desc ≠ .ok m := by
      intro parsed
      refine other (m.params.flatMap TypeDesc.chars ++ ')' :: m.result.chars) ?_
      rw [← MethodDesc.text_of_parse parsed, MethodDesc.text, String.toList_ofList,
        MethodDesc.chars]
    cases parsed : TypeDesc.parse desc with
    | error e =>
      refine ⟨fun member => (List.not_mem_nil member).elim, fun mentions => ?_⟩
      cases mentions with
      | type isType => cases parsed.symm.trans isType
      | method isMethod => exact absurd isMethod (noMethod _)
    | ok t =>
      change name ∈ t.classNames ↔ _
      rw [TypeDesc.mem_classNames]
      refine ⟨fun named => .type parsed named, fun mentions => ?_⟩
      cases mentions with
      | type isType named => exact Except.ok.inj (parsed.symm.trans isType) ▸ named
      | method isMethod => exact absurd isMethod (noMethod _)

theorem mem_operandClasses {operand name : String} : name ∈ operandClasses operand ↔
    OperandMentions operand name := by
  unfold operandClasses
  split
  · rename_i s start
    have head : operand.toList.head? = some '[' := by rw [start]; rfl
    rw [mem_descriptorClasses]
    refine ⟨.array head, fun mentions => ?_⟩
    cases mentions with
    | plain other => exact absurd head other
    | array _ mentions => exact mentions
  · rename_i other
    have head : operand.toList.head? ≠ some '[' := fun start =>
      let ⟨s, same⟩ := List.head?_eq_some_iff.1 start
      other s same
    rw [List.mem_singleton]
    refine ⟨?_, fun mentions => ?_⟩
    · rintro rfl
      exact .plain head
    cases mentions with
    | plain => rfl
    | array start => exact absurd start head

theorem Insn.mem_classNames {insn : Insn} {name : String} : name ∈ insn.classNames ↔
    insn.Mentions name := by
  constructor
  · intro member
    unfold classNames at member
    split at member
    · rcases List.mem_append.1 member with inside | inside
      · exact .fieldOwner (mem_operandClasses.1 inside)
      · exact .fieldType (mem_descriptorClasses.1 inside)
    · rcases List.mem_append.1 member with inside | inside
      · exact .methodOwner (mem_operandClasses.1 inside)
      · exact .methodType (mem_descriptorClasses.1 inside)
    · exact .type (mem_operandClasses.1 member)
    · exact .constant (mem_operandClasses.1 member)
    · exact .multiNewArray (mem_descriptorClasses.1 member)
    · cases member
  · intro mentions
    cases mentions with
    | fieldOwner owner | methodOwner owner =>
      exact List.mem_append_left _ (mem_operandClasses.2 owner)
    | fieldType type | methodType type =>
      exact List.mem_append_right _ (mem_descriptorClasses.2 type)
    | type operand | constant operand => exact mem_operandClasses.2 operand
    | multiNewArray type => exact mem_descriptorClasses.2 type

theorem MethodDecl.mem_classNames {m : MethodDecl} {name : String} :
    name ∈ m.classNames ↔ DescriptorMentions m.desc name ∨ ∃ code, m.code = some code ∧
      ((∃ insn ∈ code.insns, insn.Mentions name) ∨
        ∃ r ∈ code.regions, r.catchType = some name) := by
  rw [classNames, List.mem_append, mem_descriptorClasses]
  refine or_congr Iff.rfl ?_
  cases m.code with
  | none => exact ⟨nofun, nofun⟩
  | some code =>
    simp only [Option.map_some, Option.getD_some, Code.classNames, List.mem_append,
      List.mem_flatMap, Insn.mem_classNames, List.mem_filterMap, Option.some.injEq, exists_eq_left']

/-- The names that are looked up for a class are those of the classes that it mentions. -/
theorem ClassSet.mem_mentioned {set : ClassSet} {id : ClassId} {name : String} :
    name ∈ set.mentioned id ↔ set.Mentions id name := by
  simp only [mentioned, List.mem_append, List.mem_flatMap, mem_descriptorClasses,
    MethodDecl.mem_classNames]
  constructor
  · rintro ((super | ⟨f, isField, type⟩) |
      ⟨m, isMethod, type | ⟨code, isCode, ⟨insn, inside, has⟩ | ⟨r, inside, catches⟩⟩⟩)
    · exact .supertype super
    · exact .field isField type
    · exact .method isMethod type
    · exact .insn isMethod isCode inside has
    · exact .catchType isMethod isCode inside catches
  · intro mentions
    cases mentions with
    | supertype super => exact .inl (.inl super)
    | field isField type => exact .inl (.inr ⟨_, isField, type⟩)
    | method isMethod type => exact .inr ⟨_, isMethod, .inl type⟩
    | insn isMethod isCode inside has =>
      exact .inr ⟨_, isMethod, .inr ⟨_, isCode, .inl ⟨_, inside, has⟩⟩⟩
    | catchType isMethod isCode inside catches =>
      exact .inr ⟨_, isMethod, .inr ⟨_, isCode, .inr ⟨_, inside, catches⟩⟩⟩

namespace ClassSet

variable {set later latest : ClassSet}

/-! ### Classes that come in -/

/-- A class is hidden, and it is the one that the classpath has under its name, or a stub for want
of one. -/
inductive CameIn (set : ClassSet) (id : ClassId) : Prop
  | listed : (set.classAt id).hidden = true →
      set.onClasspath? (set.classAt id).name = .ok (some (set.classFile id)) → CameIn set id
  | stub : set.onClasspath? (set.classAt id).name = .ok none →
      set.classAt id = .stub (set.classAt id).name → CameIn set id

/-- A set has grown by classes from its classpath and by stubs. -/
structure Stocked (set later : ClassSet) : Prop where
  untouched : Untouched set later
  hasClass : ∀ id, set.HasClass id → later.HasClass id
  hasMethod : ∀ m, set.HasMethod m → later.HasMethod m
  hasField : ∀ f, set.HasField f → later.HasField f
  classpath : later.classpath = set.classpath
  find? : ∀ name id, set.find? name = some id → later.find? name = some id
  added : ∀ id, later.HasClass id → ¬set.HasClass id → later.CameIn id
  wellFormed : later.WellFormed

theorem Untouched.classFile (untouched : Untouched set later) (formed : set.WellFormed)
    {id : ClassId} (known : set.HasClass id) : later.classFile id = set.classFile id := by
  have fields : (set.classAt id).fields.map (fun f => (later.fieldAt f).toFieldDecl) =
      (set.classAt id).fields.map fun f => (set.fieldAt f).toFieldDecl :=
    List.map_congr_left fun f member => by rw [untouched.fieldAt f (formed.fields id f member).1]
  have methods : (set.classAt id).methods.map (fun m => (later.methodAt m).toMethodDecl) =
      (set.classAt id).methods.map fun m => (set.methodAt m).toMethodDecl :=
    List.map_congr_left fun m member => by rw [untouched.methodAt m (formed.methods id m member).1]
  rw [ClassSet.classFile, untouched.classAt id known, fields, methods, ClassSet.classFile]

namespace Stocked

theorem refl (formed : set.WellFormed) : Stocked set set where
  untouched := .refl set
  hasClass _ known := known
  hasMethod _ known := known
  hasField _ known := known
  classpath := rfl
  find? _ _ found := found
  added _ known unknown := absurd known unknown
  wellFormed := formed

theorem cameIn (stocked : Stocked set later) (formed : set.WellFormed) {id : ClassId}
    (known : set.HasClass id) (cameIn : set.CameIn id) : later.CameIn id := by
  have same := stocked.untouched.classAt id known
  cases cameIn with
  | listed hidden listed =>
    refine .listed (same ▸ hidden) ?_
    rw [onClasspath?_congr stocked.classpath, same, listed,
      stocked.untouched.classFile formed known]
  | stub none isStub =>
    refine .stub ?_ (same ▸ isStub)
    rw [onClasspath?_congr stocked.classpath, same, none]

theorem trans (first : Stocked set later) (second : Stocked later latest) : Stocked set latest where
  untouched := ⟨
    fun id known => (second.untouched.classAt id (first.hasClass id known)).trans
      (first.untouched.classAt id known),
    fun m known => (second.untouched.methodAt m (first.hasMethod m known)).trans
      (first.untouched.methodAt m known),
    fun f known => (second.untouched.fieldAt f (first.hasField f known)).trans
      (first.untouched.fieldAt f known)⟩
  hasClass id known := second.hasClass id (first.hasClass id known)
  hasMethod m known := second.hasMethod m (first.hasMethod m known)
  hasField f known := second.hasField f (first.hasField f known)
  classpath := second.classpath.trans first.classpath
  find? name id found := second.find? name id (first.find? name id found)
  added id known unknown := by
    by_cases came : later.HasClass id
    · exact second.cameIn first.wellFormed came (first.added id came unknown)
    · exact second.added id known came
  wellFormed := second.wellFormed

theorem isSome_find? (stocked : Stocked set later) {name : String}
    (found : (set.find? name).isSome) :
    (later.find? name).isSome := by
  obtain ⟨id, found⟩ := Option.isSome_iff_exists.1 found
  rw [stocked.find? name id found]
  rfl

end Stocked

theorem Appended.eq_nextClass {name : String} {hidden : Bool}
    (appended : Appended set name hidden later) (id : ClassId) (known : later.HasClass id)
    (unknown : ¬set.HasClass id) : id = set.nextClass := by
  obtain ⟨c, methods, fields, -, -, rfl⟩ := appended
  rw [HasClass, Array.size_push] at known
  obtain ⟨index⟩ := id
  exact congrArg ClassId.mk (Nat.le_antisymm (Nat.le_of_lt_succ known) (Nat.le_of_not_lt unknown))

theorem Appended.stocked {name : String} (appended : Appended set name true later)
    (formed : later.WellFormed) (cameIn : later.CameIn set.nextClass) : Stocked set later := by
  have untouched := appended.untouched
  have search := appended.find?_eq
  have added := appended.eq_nextClass
  obtain ⟨c, methods, fields, -, -, rfl⟩ := appended
  refine ⟨untouched, fun id known => set.hasClass_addClass c known, fun m known => ?_,
    fun f known => ?_, rfl, fun name id found => by rw [search, found, Option.some_or],
    fun id known unknown => added id known unknown ▸ cameIn, formed⟩
  · rw [HasMethod, Array.size_append]
    exact Nat.lt_add_right _ known
  · rw [HasField, Array.size_append]
    exact Nat.lt_add_right _ known

theorem classFile_extend (file : ClassFile) (source : Option Bytes) (hidden : Bool) :
    (set.extend file source hidden).classFile set.nextClass = file := by
  have fields : ((List.range' set.fields.size file.fields.length).map FieldId.mk).map
      (fun f => ((set.extend file source hidden).fieldAt f).toFieldDecl) = file.fields := by
    refine List.ext_getElem (by simp) fun i inside inside' => ?_
    have beyond : ¬set.fields.size + i < set.fields.size := by omega
    simp [fieldAt_extend, inside', beyond, FieldDecl.entryIn]
  have methods : ((List.range' set.methods.size file.methods.length).map MethodId.mk).map
      (fun m => ((set.extend file source hidden).methodAt m).toMethodDecl) = file.methods := by
    refine List.ext_getElem (by simp) fun i inside inside' => ?_
    have beyond : ¬set.methods.size + i < set.methods.size := by omega
    simp [methodAt_extend, inside', beyond, MethodDecl.entryIn]
  rw [classFile, classAt_extend, if_pos rfl]
  exact congrArg₂ (ClassFile.mk file.header) fields methods

theorem stocked_extend (formed : set.WellFormed) {file : ClassFile}
    (new : set.find? file.header.name = none)
    (listed : set.onClasspath? file.header.name = .ok (some file)) :
    Stocked set (set.extend file none true) := by
  have inserted := insert?_eq new none true
  have entry := set.classAt_extend file none true set.nextClass
  rw [if_pos rfl] at entry
  refine (insert?_appends inserted).stocked ((evolves_insert? inserted).wellFormed formed)
    (.listed ?_ ?_)
  · rw [entry]
    rfl
  · rw [classFile_extend, entry]
    exact listed

theorem appended_stub (set : ClassSet) (name : String) :
    Appended set name true (set.addClass (.stub name)) :=
  ⟨.stub name, #[], #[], rfl, rfl, by simp [addClass]⟩

theorem classAt_addClass_self (set : ClassSet) (c : ClassEntry) :
    (set.addClass c).classAt set.nextClass = c := by
  simp [classAt, addClass, nextClass]

theorem stocked_stub (formed : set.WellFormed) {name : String}
    (none : set.onClasspath? name = .ok none) :
    Stocked set (set.addClass (.stub name)) := by
  have evolves : Evolves .everything set (set.addClass (.stub name)) := .addClass _ set rfl rfl rfl
  refine (appended_stub set name).stocked (evolves.wellFormed formed) (.stub ?_ ?_)
  · rw [classAt_addClass_self]
    exact none
  · rw [classAt_addClass_self]
    rfl

/-! ### Levels -/

/-- How many entries of the classpath have not been taken. -/
def untaken (set : ClassSet) : Nat := set.classpath.countP fun e => (set.find? e.1).isNone

theorem Stocked.untaken_le (stocked : Stocked set later) : later.untaken ≤ set.untaken := by
  rw [untaken, stocked.classpath]
  refine List.countP_mono_left fun e _ missing => ?_
  rw [Option.isNone_iff_eq_none] at missing ⊢
  cases found : set.find? e.1 with
  | none => rfl
  | some id => cases missing.symm.trans (stocked.find? e.1 id found)

theorem Stocked.untaken_lt (stocked : Stocked set later) {name : String}
    (listed : (set.provided? name).isSome) (new : set.find? name = none)
    (found : (later.find? name).isSome) : later.untaken < set.untaken := by
  obtain ⟨file, isListed⟩ := exists_of_provided? listed
  obtain ⟨bytes, inside, -⟩ := exists_lookup_of_onClasspath? isListed
  have member : (name, .content bytes) ∈ set.classpath := by
    obtain ⟨front, rest, split, -⟩ := List.lookup_eq_some_iff.1 inside
    rw [split]
    exact List.mem_append_right _ (.head _)
  obtain ⟨front, rest, split⟩ := List.append_of_mem member
  have fewer (es : Classpath) :
      es.countP (fun e => (later.find? e.1).isNone) ≤ es.countP fun e =>
        (set.find? e.1).isNone := by
    refine List.countP_mono_left fun e _ missing => ?_
    rw [Option.isNone_iff_eq_none] at missing ⊢
    cases found : set.find? e.1 with
    | none => rfl
    | some id => cases missing.symm.trans (stocked.find? e.1 id found)
  have first := fewer front
  have second := fewer rest
  rw [untaken, untaken, stocked.classpath, split, List.countP_append, List.countP_append,
    List.countP_cons_of_neg (by simpa [Option.isSome_iff_ne_none] using found),
    List.countP_cons_of_pos (by simp [new])]
  omega

/-- Names have been looked up, and others are to be looked up because of the classes that came
in. -/
structure Looked (set : ClassSet) (names onward : List String) (later : ClassSet) : Prop where
  stocked : Stocked set later
  found : ∀ n ∈ names, (later.find? n).isSome
  supertypes : ∀ id, later.HasClass id → ¬set.HasClass id →
    ∀ n ∈ (later.classAt id).supertypes, n ∈ onward
  fewer : onward ≠ [] → later.untaken < set.untaken

/-- A class has come in for a name, and its supertypes are to be looked up. -/
theorem Appended.looked {name : String} (appended : Appended set name true later)
    (stocked : Stocked set later) (new : set.find? name = none)
    (fewer : (later.classAt set.nextClass).supertypes ≠ [] → (set.provided? name).isSome) :
    Looked set [name] (later.classAt set.nextClass).supertypes later := by
  have found : (later.find? name).isSome := by
    rw [appended.find?_eq, new, if_pos rfl]
    rfl
  refine ⟨stocked, List.forall_mem_singleton.2 found, fun id known unknown n member => ?_,
    fun some => ?_⟩
  · exact appended.eq_nextClass id known unknown ▸ member
  · exact stocked.untaken_lt (fewer some) new found

theorem load_of_unknown {name : String} {found : Option ClassId} (new : set.find? name = none)
    (ran : (load name).run set = .ok found later) :
    (set.onClasspath? name = .ok none ∧ found = none ∧ later = set) ∨
      ∃ file, set.onClasspath? name = .ok (some file) ∧ file.header.name = name ∧
        found = some set.nextClass ∧ later = set.extend file none true := by
  obtain ⟨_, _, got, ran⟩ := run_bind_ok ran
  cases got
  rw [new] at ran
  match listed : set.onClasspath? name with
  | .error _ =>
    rw [listed] at ran
    cases ran
  | .ok none =>
    rw [listed] at ran
    cases ran
    exact .inl ⟨rfl, rfl, rfl⟩
  | .ok (some file) =>
    rw [listed] at ran
    dsimp only at ran
    split at ran
    · rename_i same
      rw [insert?_eq (same ▸ new)] at ran
      cases ran
      exact .inr ⟨file, rfl, same, rfl, rfl⟩
    · cases ran

theorem loadOrStub_looked {name : String} {onward : List String} (formed : set.WellFormed)
    (ran : (loadOrStub name).run set = .ok onward later) : Looked set [name] onward later := by
  obtain ⟨_, _, got, ran⟩ := run_bind_ok ran
  cases got
  split at ran
  · rename_i found
    cases ran
    exact ⟨.refl formed, List.forall_mem_singleton.2 found,
      fun id known unknown => absurd known unknown, nofun⟩
  · rename_i missing
    have new : set.find? name = none := Option.not_isSome_iff_eq_none.1 missing
    obtain ⟨taken, middle, ranLoad, ranOnward⟩ := run_bind_ok ran
    obtain ⟨none, rfl, unmoved⟩ | ⟨file, listed, rfl, rfl, rfl⟩ := load_of_unknown new ranLoad
    · subst middle
      cases ranOnward
      have none' : ((set.addClass (.stub name)).classAt set.nextClass).supertypes = [] := by
        rw [classAt_addClass_self]
        rfl
      have looked := (appended_stub set name).looked (stocked_stub formed none) new fun some =>
        absurd none' some
      rwa [none'] at looked
    · obtain ⟨_, _, got, ranLast⟩ := run_bind_ok ranOnward
      cases got
      cases ranLast
      exact (insert?_appends (insert?_eq new none true)).looked
        (stocked_extend formed new listed) new
        fun _ => by rw [provided?_of_onClasspath? listed]; rfl

theorem Looked.append {names names' onward onward' : List String}
    (first : Looked set names onward later) (second : Looked later names' onward' latest) :
    Looked set (names ++ names') (onward ++ onward') latest where
  stocked := first.stocked.trans second.stocked
  found := List.forall_mem_append.2
    ⟨fun n member => second.stocked.isSome_find? (first.found n member), second.found⟩
  supertypes id known unknown n member := by
    by_cases came : later.HasClass id
    · rw [second.stocked.untouched.classAt id came] at member
      exact List.mem_append_left _ (first.supertypes id came unknown n member)
    · exact List.mem_append_right _ (second.supertypes id known came n member)
  fewer some := by
    by_cases empty : onward = []
    · rw [empty, List.nil_append] at some
      exact Nat.lt_of_lt_of_le (second.fewer some) first.stocked.untaken_le
    · exact Nat.lt_of_le_of_lt second.stocked.untaken_le (first.fewer empty)

theorem loadLevel_looked {names onward : List String} (formed : set.WellFormed)
    (ran : (loadLevel names).run set = .ok onward later) : Looked set names onward later := by
  induction names generalizing set onward with
  | nil =>
    cases ran
    exact ⟨.refl formed, List.forall_mem_nil _, fun id known unknown => absurd known unknown, nofun⟩
  | cons name names ih =>
    obtain ⟨found, middle, ranFirst, ran⟩ := run_bind_ok ran
    obtain ⟨rest, last, ranRest, ran⟩ := run_bind_ok ran
    cases ran
    have first := loadOrStub_looked formed ranFirst
    exact first.append (ih first.stocked.wellFormed ranRest)

/-- Where all names are known, looking them up changes nothing. -/
theorem run_loadLevel_of_found {names : List String} (found : ∀ n ∈ names, (set.find? n).isSome) :
    (loadLevel names).run set = .ok [] set := by
  induction names with
  | nil => rfl
  | cons name names ih =>
    have here : (loadOrStub name).run set = .ok [] set := by
      unfold loadOrStub
      change EStateM.run (if (set.find? name).isSome then _ else _) set = _
      rw [if_pos (found name (.head _))]
      rfl
    rw [loadLevel, run_bind_of_ok here,
      run_bind_of_ok (ih fun n member => found n (.tail _ member))]
    rfl

theorem run_loadLevels_of_found (fuel : Nat) {names : List String}
    (found : ∀ n ∈ names, (set.find? n).isSome) :
    (loadLevels fuel names).run set = .ok () set := by
  induction fuel generalizing names with
  | zero => rfl
  | succ fuel ih =>
    rw [loadLevels, run_bind_of_ok (run_loadLevel_of_found found)]
    exact ih (List.forall_mem_nil _)

/-- With a level for each entry of the classpath that has not been taken, and one more, all names
are looked up, and all supertypes of the classes that come in. -/
theorem loadLevels_stocked {fuel : Nat} {names : List String} (formed : set.WellFormed)
    (enough : set.untaken < fuel) (ran : (loadLevels fuel names).run set = .ok () later) :
    Stocked set later ∧ (∀ n ∈ names, (later.find? n).isSome) ∧
      ∀ id, later.HasClass id → ¬set.HasClass id → ∀ n ∈ (later.classAt id).supertypes,
        (later.find? n).isSome := by
  induction fuel generalizing set names with
  | zero => exact absurd enough (Nat.not_lt_zero _)
  | succ fuel ih =>
    obtain ⟨onward, middle, ranLevel, ran⟩ := run_bind_ok ran
    have looked := loadLevel_looked formed ranLevel
    by_cases empty : onward = []
    · subst empty
      rw [run_loadLevels_of_found fuel (List.forall_mem_nil _)] at ran
      cases ran
      exact ⟨looked.stocked, looked.found,
        fun id known unknown n member => nomatch looked.supertypes id known unknown n member⟩
    · have fewer := looked.fewer empty
      obtain ⟨stocked, found, supertypes⟩ := ih looked.stocked.wellFormed (by omega) ran
      refine ⟨looked.stocked.trans stocked,
        fun n member => stocked.isSome_find? (looked.found n member),
        fun id known unknown n member => ?_⟩
      by_cases came : middle.HasClass id
      · rw [stocked.untouched.classAt id came] at member
        exact found n (looked.supertypes id came unknown n member)
      · exact supertypes id known came n member

/-! ### The classes that candidates mention -/

theorem Untouched.mentioned (untouched : Untouched set later) (formed : set.WellFormed)
    {id : ClassId} (known : set.HasClass id) : later.mentioned id = set.mentioned id := by
  have fields : (set.classAt id).fields.flatMap
      (fun f => descriptorClasses (later.fieldAt f).desc) =
      (set.classAt id).fields.flatMap fun f => descriptorClasses (set.fieldAt f).desc :=
    List.flatMap_congr fun f member => by rw [untouched.fieldAt f (formed.fields id f member).1]
  have methods : (set.classAt id).methods.flatMap (fun m => (later.methodAt m).classNames) =
      (set.classAt id).methods.flatMap fun m => (set.methodAt m).classNames :=
    List.flatMap_congr fun m member => by rw [untouched.methodAt m (formed.methods id m member).1]
  rw [ClassSet.mentioned, untouched.classAt id known, fields, methods, ClassSet.mentioned]

theorem CameIn.hidden {id : ClassId} (cameIn : set.CameIn id) : (set.classAt id).hidden = true := by
  cases cameIn with
  | listed hidden => exact hidden
  | stub _ isStub => rw [isStub]; rfl

/-- What comes in is hidden, so there are no new candidates. -/
theorem Stocked.mem_candidates (stocked : Stocked set later) {id : ClassId} :
    id ∈ later.candidates ↔ id ∈ set.candidates := by
  rw [ClassSet.mem_candidates, ClassSet.mem_candidates]
  by_cases known : set.HasClass id
  · rw [stocked.untouched.classAt id known]
    exact and_congr_left fun _ => ⟨fun _ => known, fun _ => stocked.hasClass id known⟩
  · refine ⟨fun ⟨came, shown, _⟩ => ?_, fun ⟨old, _⟩ => absurd old known⟩
    rw [(stocked.added id came known).hidden] at shown
    cases shown

/-- Once the classes that the candidates mention have been taken from the classpath, all of them are
there. Known classes have stayed as they were, and what has come in is hidden: a class from the
classpath, or a stub where it has none. Nothing comes in a second time. A weak name that stands for
nothing yet is bound to any class that a candidate mentions, unless another name stands for the
class. -/
theorem loadMentioned_complete (formed : set.WellFormed)
    (ran : loadMentioned.run set = .ok () later) :
    (∀ id ∈ later.candidates, ∀ name, later.Mentions id name → (later.find? name).isSome) ∧
    Stocked set later ∧ (∀ id, id ∈ later.candidates ↔ id ∈ set.candidates) ∧
    (∀ id, later.HasClass id → ¬set.HasClass id →
      ∀ name ∈ (later.classAt id).supertypes, (later.find? name).isSome) ∧
    loadMentioned.run later = .ok () later ∧
    ∀ id ∈ later.candidates, ∀ name, later.Mentions id name → ∀ (pattern : String) (scope : Scope),
      isWeakName pattern = true → isAnyName pattern = false → scope.class? pattern = none →
      ∃ found, later.find? name = some found ∧ (later.checkClassName pattern name).run scope =
        match scope.bindClass? pattern found with
        | some bound => (.bound, bound)
        | none => (.rejected, scope) := by
  have enough : set.untaken < set.classpath.length + 1 := Nat.lt_succ_of_le List.countP_le_length
  obtain ⟨stocked, found, supertypes⟩ := loadLevels_stocked formed enough ran
  have complete : ∀ id ∈ later.candidates, ∀ name, later.Mentions id name →
      (later.find? name).isSome := by
    intro id candidate name mentions
    have old := stocked.mem_candidates.1 candidate
    refine found name (List.mem_flatMap.2 ⟨id, old, ?_⟩)
    rw [← stocked.untouched.mentioned formed ((ClassSet.mem_candidates set id).1 old).1]
    exact mem_mentioned.2 mentions
  refine ⟨complete, stocked, fun id => stocked.mem_candidates, supertypes, ?_, ?_⟩
  · refine run_loadLevels_of_found _ fun name member => ?_
    obtain ⟨id, candidate, isMentioned⟩ := List.mem_flatMap.1 member
    exact complete id candidate name (mem_mentioned.1 isMentioned)
  · intro id candidate name mentions pattern scope weak notAny unbound
    obtain ⟨here, isHere⟩ := Option.isSome_iff_exists.1 (complete id candidate name mentions)
    refine ⟨here, isHere, ?_⟩
    rw [run_checkClassName, notAny, if_neg Bool.false_ne_true, weak, if_neg (by simp),
      checkWeakName, unbound, isHere]
    rfl

/-- The file of a class `B` that extends `C`. -/
def bytesOfB : Bytes :=
  [0xca, 0xfe, 0xba, 0xbe, 0, 0, 0, 50, 0, 5, 1, 0, 1, 66, 7, 0, 1, 1, 0, 1, 67, 7, 0, 3, 0, 33, 0,
    2, 0, 4, 0, 0, 0, 0, 0, 0, 0, 0]

/-- A class with an array of `B`, and a classpath that has `B` only. -/
def arrayHolder : ClassSet :=
  ({ classpath := [("B", .content bytesOfB)] } : ClassSet).extend
    ⟨(ClassEntry.fresh "A" none 0).toClassHeader, [⟨"bs", "[LB;", 0, none⟩], []⟩ none false

/-- The class is known, then `B`, and then a stub for `C`. -/
def arrayHolderLoaded : ClassSet :=
  (arrayHolder.extend ⟨⟨"B", some "C", [], 33, 50, 0, none⟩, [], []⟩ none true).addClass (.stub "C")

theorem loadMentioned_complete_arrayHolder :
    (arrayHolderLoaded.find? "B").isSome ∧ arrayHolderLoaded.CameIn ⟨1⟩ ∧
      arrayHolderLoaded.CameIn ⟨2⟩ ∧
      loadMentioned.run arrayHolderLoaded = .ok () arrayHolderLoaded ∧
      ∃ found, arrayHolderLoaded.find? "B" = some found ∧
        (arrayHolderLoaded.checkClassName "~X" "B").run {} =
        match ({} : Scope).bindClass? "~X" found with
        | some bound => (.bound, bound)
        | none => (.rejected, {}) := by
  have formed : arrayHolder.WellFormed :=
    (evolves_insert? (insert?_eq (by decide +kernel) none false)).wellFormed (wellFormed_empty _)
  have ran : loadMentioned.run arrayHolder = .ok () arrayHolderLoaded := by decide +kernel
  have candidate : (⟨0⟩ : ClassId) ∈ arrayHolderLoaded.candidates := by decide +kernel
  have mentions : arrayHolderLoaded.Mentions ⟨0⟩ "B" :=
    .field (f := ⟨0⟩) (by decide) (.type (t := ⟨1, .object "B"⟩) (by decide) rfl)
  obtain ⟨complete, stocked, -, -, again, binds⟩ := loadMentioned_complete formed ran
  refine ⟨complete ⟨0⟩ candidate "B" mentions, stocked.added ⟨1⟩ ?_ ?_,
    stocked.added ⟨2⟩ ?_ ?_, again,
    binds ⟨0⟩ candidate "B" mentions "~X" {} (by decide) (by decide) rfl⟩
  · exact (show 1 < arrayHolderLoaded.classes.size by decide +kernel)
  · exact (show ¬1 < arrayHolder.classes.size by decide +kernel)
  · exact (show 2 < arrayHolderLoaded.classes.size by decide +kernel)
  · exact (show ¬2 < arrayHolder.classes.size by decide +kernel)

end ClassSet

end JvmPatch
