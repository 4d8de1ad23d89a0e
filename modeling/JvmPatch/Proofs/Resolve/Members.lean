import JvmPatch.Proofs.ClassSet.Growth
import JvmPatch.Proofs.Resolve.Binding
import JvmPatch.Proofs.Resolve.Completeness

/-! What the keys of members stand for. Before a key is bound to a member, another member with that
key is looked for among those that a class declares. This is the class through which the member is
referred to, so that two members of a class share a key only if one of them is referred to through
another class. -/

set_option autoImplicit false

namespace JvmPatch

/-- No class declares two members of the same key that are referred to through no other class. -/
def Table.KeepsApart {α : Type} [DecidableEq α] (names : Table α MemberKey)
    (declaredBy : α → ClassId) (refers : ClassId → MemberKey → α → Prop) : Prop :=
  ∀ key x y, names.get? x = some key → names.get? y = some key → declaredBy x = declaredBy y →
    (∀ cls, refers cls key x ∨ refers cls key y → cls = declaredBy x) → x = y

/-- A key keeps members apart if the class through which it is bound declares no other member of
it. -/
theorem Table.KeepsApart.insert {α : Type} [Ord α] [DecidableEq α] {names : Table α MemberKey}
    {declaredBy : α → ClassId} {refers : ClassId → MemberKey → α → Prop}
    (apart : names.KeepsApart declaredBy refers) {owner : ClassId} {key : MemberKey} {x : α}
    (free : ∀ y, names.get? y = some key → declaredBy y ≠ owner) (referred : refers owner key x) :
    (names.insert x key).KeepsApart declaredBy refers := by
  intro k y z bound bound' same direct
  rw [get?_insert] at bound bound'
  split at bound <;> split at bound'
  · rw [‹y = x›, ‹z = x›]
  · rename_i isNew _
    obtain rfl := isNew
    obtain rfl := Option.some.inj bound
    exact absurd (same.symm.trans (direct owner (.inl referred)).symm) (free z bound')
  · rename_i isNew
    obtain rfl := isNew
    obtain rfl := Option.some.inj bound'
    exact absurd (direct owner (.inr referred)).symm (free y bound)
  · exact apart k y z bound bound' same direct

section References

variable (set : ClassSet) (script : Script) (a : Assignment)

/-- A script uses a key for a field through a class: a line for a field of the class has the key, or
a line of a method block has it where an instruction of the body refers to the field. -/
inductive Script.NamesField : ClassId → MemberKey → FieldId → Prop where
  | line {e cls f id} : e ∈ script.classes.zip a → e.1.mode ≠ .add → e.2.cls = some cls →
      f ∈ e.1.fields.zip e.2.fields → f.1.mode ≠ .add → f.1.ident.isBindable = true →
        f.2 = some id →
      NamesField cls (.of f.1.ident f.1.desc) id
  | insn {t body code l insn cls key id} : t ∈ script.targets a → t.body? set = some body →
      (set.methodAt body).code = some code → l ∈ t.block.insns → l.mode ≠ .add → insn ∈ code.insns →
      l.pattern.NamesField set insn cls key id → NamesField cls key id

/-- A script uses a key for a method through a class: a block for a method of the class has the key,
or a line of a method block has it where an instruction of the body refers to the method. -/
inductive Script.NamesMethod : ClassId → MemberKey → MethodId → Prop where
  | block {t} : t ∈ script.targets a → t.block.ident.isBindable = true →
      NamesMethod t.cls (.of t.block.ident t.block.desc) t.handle
  | insn {t body code l insn cls key id} : t ∈ script.targets a → t.body? set = some body →
      (set.methodAt body).code = some code → l ∈ t.block.insns → l.mode ≠ .add → insn ∈ code.insns →
      l.pattern.NamesMethod set insn cls key id → NamesMethod cls key id

theorem Pattern.NamesField.exists_meant {set : ClassSet} {pattern : Pattern} {insn : Insn}
    {cls : ClassId} {key : MemberKey} {id : FieldId}
    (names : pattern.NamesField set insn cls key id) :
    ∃ op owner name desc, insn = .field op owner name desc ∧
      set.meantField? owner name desc = some (cls, id) := by
  cases names with
  | intro _ meant => exact ⟨_, _, _, _, rfl, meant⟩

theorem Pattern.NamesMethod.exists_meant {set : ClassSet} {pattern : Pattern} {insn : Insn}
    {cls : ClassId} {key : MemberKey} {m : MethodId}
    (names : pattern.NamesMethod set insn cls key m) :
    ∃ owner name desc, set.meantMethod? owner name desc = some (cls, m) := by
  cases names with
  | intro _ meant => exact ⟨_, _, _, meant⟩

theorem ClassSet.WellFormed.meantMethod {set : ClassSet} {owner name desc : String} {cls : ClassId}
    {m : MethodId} (formed : set.WellFormed)
    (meant : set.meantMethod? owner name desc = some (cls, m)) : set.HasMethod m := by
  obtain ⟨id, -, found⟩ := Option.bind_eq_some_iff.1 meant
  obtain ⟨x, found, same⟩ := Option.map_eq_some_iff.1 found
  cases same
  obtain ⟨ancestor, -, viewed⟩ := List.exists_of_findSome?_eq_some found
  exact formed.views ancestor m (List.mem_of_find?_eq_some viewed)

theorem ClassSet.WellFormed.meantField {set : ClassSet} {owner name desc : String}
    {cls : ClassId} {f : FieldId} (formed : set.WellFormed)
    (meant : set.meantField? owner name desc = some (cls, f)) : set.HasField f := by
  obtain ⟨id, -, found⟩ := Option.bind_eq_some_iff.1 meant
  obtain ⟨x, found, same⟩ := Option.map_eq_some_iff.1 found
  cases same
  obtain ⟨ancestor, -, declared⟩ := List.exists_of_findSome?_eq_some found
  exact (formed.fields ancestor f (List.mem_of_find?_eq_some declared)).1

/-- Members are bound to the keys that a script uses for them. -/
def Script.namesMembers : Scope.Permit where
  label _ _ := True
  field classes cls key id := classes = set ∧ script.NamesField set a cls key id
  method classes cls key id := classes = set ∧ script.NamesMethod set a cls key id

theorem ClassSet.allows_namesMembers : set.Allows (script.namesMembers set a) script a where
  field _ member notAdded _ isClass _ isField fieldNotAdded bindable _ assigned :=
    ⟨rfl, .line member notAdded isClass isField fieldNotAdded bindable assigned⟩
  method _ target bindable := ⟨rfl, .block target bindable⟩
  body _ target _ _ _ isBody hasCode :=
    ⟨fun _ _ _ _ => trivial, fun _ isLine notAdded _ isInsn => ⟨fun _ _ => trivial,
      fun _ _ _ names => ⟨rfl, .insn target isBody hasCode isLine notAdded isInsn names⟩,
      fun _ _ _ names => ⟨rfl, .insn target isBody hasCode isLine notAdded isInsn names⟩⟩⟩

end References

section Invariant

variable {set : ClassSet} {script : Script} {a : Assignment} {scope later : Scope}

structure ClassChoice.Known (set : ClassSet) (choice : ClassChoice) : Prop where
  fields : ∀ f, some f ∈ choice.fields → set.HasField f
  methods : ∀ m, some m ∈ choice.methods → set.HasMethod m

/-- The members that a script names are known if those are that are assigned to it. -/
theorem Script.NamesMethod.known {cls : ClassId} {key : MemberKey} {m : MethodId}
    (formed : set.WellFormed) (known : ∀ choice ∈ a, choice.Known set)
    (names : script.NamesMethod set a cls key m) : set.HasMethod m := by
  cases names with
  | block target =>
    obtain ⟨e, inside, -, isMethod⟩ := choice_of_target target
    exact (known e.2 (List.of_mem_zip inside).2).methods _ isMethod
  | insn _ _ _ _ _ _ names =>
    obtain ⟨_, _, _, meant⟩ := names.exists_meant
    exact formed.meantMethod meant

theorem Script.NamesField.known {cls : ClassId} {key : MemberKey} {f : FieldId}
    (formed : set.WellFormed) (known : ∀ choice ∈ a, choice.Known set)
    (names : script.NamesField set a cls key f) : set.HasField f := by
  cases names with
  | line inside _ _ isField _ _ assigned =>
    exact (known _ (List.of_mem_zip inside).2).fields f (assigned ▸ (List.of_mem_zip isField).2)
  | insn _ _ _ _ _ _ names =>
    obtain ⟨_, _, _, _, -, meant⟩ := names.exists_meant
    exact formed.meantField meant

/-- The keys that a script uses keep members of the same class apart. -/
structure Scope.KeepsApart (set : ClassSet) (script : Script) (a : Assignment)
    (scope : Scope) : Prop where
  fields : scope.fields.KeepsApart (fun id => (set.fieldAt id).declaredBy) (script.NamesField set a)
  methods : scope.methods.KeepsApart (fun id => (set.methodAt id).declaredBy)
    (script.NamesMethod set a)

namespace Scope.KeepsApart

theorem congr (apart : scope.KeepsApart set script a) (fields : later.fields = scope.fields)
    (methods : later.methods = scope.methods) : later.KeepsApart set script a :=
  ⟨fields ▸ apart.fields, methods ▸ apart.methods⟩

theorem binds (apart : scope.KeepsApart set script a)
    (binds : Binds (script.namesMembers set a) scope later) : later.KeepsApart set script a := by
  cases binds with
  | cls bound =>
    obtain ⟨fields, methods⟩ := members_of_bindClass? bound
    exact apart.congr fields methods
  | field permitted bound =>
    obtain ⟨rfl, names⟩ := permitted
    rcases bindField?_cases bound with rfl | ⟨-, free, rfl⟩
    · exact apart
    · exact ⟨apart.fields.insert free names, apart.methods⟩
  | method permitted bound =>
    obtain ⟨rfl, names⟩ := permitted
    rcases bindMethod?_cases bound with rfl | ⟨-, free, rfl⟩
    · exact apart
    · exact ⟨apart.fields, apart.methods.insert free names⟩
  | label _ bound =>
    rcases bindLabel?_cases bound with rfl | ⟨-, -, rfl⟩ <;> exact apart.congr rfl rfl

/-- Whatever steps a trial takes, members are kept apart. -/
theorem steps (apart : scope.KeepsApart set script a)
    (steps : Steps (script.namesMembers set a) scope later) : later.KeepsApart set script a := by
  induction steps with
  | refl => exact apart
  | tail _ step ih =>
    cases step with
    | bind binds => exact ih.binds binds
    | record => exact ih.congr rfl rfl
    | clear => exact ih.congr rfl rfl

end Scope.KeepsApart

end Invariant

/-- In the scope that is found for a script, a key stands for at most one field and one method that
a class declares, as far as the script uses the key for them only through the class that declares
them. -/
theorem ClassSet.resolve_keepsApart {set : ClassSet} {script : Script} {o : ResolveOptions}
    {r : Resolution} (resolved : set.resolve script {} (set.verify script) o = .ok r) :
    (∀ key x y, r.scope.fields.get? x = some key → r.scope.fields.get? y = some key →
        (set.fieldAt x).declaredBy = (set.fieldAt y).declaredBy →
        (∀ cls, script.NamesField set r.assignment cls key x ∨
          script.NamesField set r.assignment cls key y →
          cls = (set.fieldAt x).declaredBy) → x = y) ∧
      ∀ key x y, r.scope.methods.get? x = some key → r.scope.methods.get? y = some key →
        (set.methodAt x).declaredBy = (set.methodAt y).declaredBy →
        (∀ cls, script.NamesMethod set r.assignment cls key x ∨
          script.NamesMethod set r.assignment cls key y →
          cls = (set.methodAt x).declaredBy) → x = y := by
  obtain ⟨claimed, bound, claims, checks⟩ := (firstAccepted_of_resolve resolved).accepted
  have allows := set.allows_namesMembers script r.assignment
  have empty : ({} : Scope).KeepsApart set script r.assignment :=
    ⟨fun _ _ _ bound => (nomatch bound), fun _ _ _ bound => (nomatch bound)⟩
  have afterClaims := (set.claimAll_steps allows).ok .refl claims
  have afterChecks := (set.verify_steps allows).ok afterClaims checks
  obtain ⟨fields, methods⟩ := empty.steps afterChecks
  exact ⟨fields, methods⟩

def staticFields : ClassFile :=
  ⟨⟨"p/P", some objectClass, [], 33, 50, 0, none⟩, [⟨"a", "I", 9, none⟩, ⟨"b", "I", 9, none⟩], []⟩

/-- A body that reads both fields through some class. -/
def readStatics (owner : String) : Code :=
  { insns := [.field Opcode.getstatic owner "a" "I", .field Opcode.getstatic owner "b" "I",
      .simple Opcode.ireturn] }

def readsStatics (owner : String) : ClassFile :=
  ⟨⟨"p/C", some "p/P", [], 33, 50, 0, none⟩, [], [⟨"m", "()I", 9, [], some (readStatics owner)⟩]⟩

/-- The two classes and the stub for the class that both descend from. Subclasses do not own static
fields. -/
def staticFamily (owner : String) : ClassSet :=
  let field (f : FieldDecl) : FieldEntry := { f with declaredBy := ⟨0⟩, owners := [⟨0⟩] }
  { classes := #[
      { staticFields.header with fields := [⟨0⟩, ⟨1⟩], modified := false },
      { (readsStatics owner).header with methods := [⟨0⟩], view := [⟨0⟩], modified := false },
      .stub objectClass]
    methods := (readsStatics owner).methods.toArray.map fun m =>
      { m with declaredBy := ⟨1⟩, owners := [⟨1⟩] }
    fields := staticFields.fields.toArray.map field }

/-- A block for the method, with names for the fields. -/
def namesRead (owner first second : String) : Script :=
  let read (name : String) (line : Nat) : InsnLine :=
    ⟨.keep, .field Opcode.getstatic,
      .field Opcode.getstatic ⟨owner, false⟩ ⟨name, true⟩ ⟨0, .int⟩ "I", line,
      ".get-static " ++ owner ++ " ~" ++ name ++ " I"⟩
  ⟨[⟨.keep, .ordinary, ⟨"p/C", false⟩, 1, [], [], [],
    [⟨.keep, ⟨"m", false⟩, "()I", ⟨[], ⟨0, .int⟩⟩, true, false, false,
      [read first 3, read second 4, ⟨.keep, .ret, .ret, 5, ".return"⟩], 2⟩]⟩]⟩

/-- The fields have been given names, and the lines are where the instructions are. -/
def readFound (first second : String) : Resolution :=
  ⟨{ fields := .insert (.insert .empty ⟨0⟩ ⟨first, "I"⟩) ⟨1⟩ ⟨second, "I"⟩
     bodies := .insert .empty ⟨0⟩ ⟨.insert (.insert (.insert .empty 0 0) 1 1) 2 2, .empty⟩ },
    [⟨some ⟨1⟩, [], [some ⟨0⟩]⟩]⟩

/-- The lines that find both fields through the class that declares them use names through no
other. -/
theorem declares_of_namesRead {first second : String} {cls : ClassId} {key : MemberKey}
    {id : FieldId} (names : (namesRead "p/P" first second).NamesField (staticFamily "p/P")
      (readFound ("~" ++ first) ("~" ++ second)).assignment cls key id) : cls = ⟨0⟩ := by
  cases names with
  | line member _ _ isField =>
    obtain rfl := List.mem_singleton.1 member
    cases isField
  | insn target isBody hasCode _ _ isInsn names =>
    obtain rfl := List.mem_singleton.1 target
    have itself : (staticFamily "p/P").bodyOf ⟨1⟩ ⟨0⟩ = some ⟨0⟩ := by with_unfolding_all decide
    obtain rfl := Option.some.inj (isBody.symm.trans itself)
    have parent : (staticFamily "p/P").find? "p/P" = some ⟨0⟩ := by with_unfolding_all decide
    obtain ⟨op, owner, name, desc, rfl, meant⟩ := names.exists_meant
    have isCode : ((staticFamily "p/P").methodAt ⟨0⟩).code = some (readStatics "p/P") := by
      simp [ClassSet.methodAt, staticFamily, readsStatics]
    obtain rfl := Option.some.inj (hasCode.symm.trans isCode)
    have throughParent : owner = "p/P" := by
      simp only [readStatics, List.mem_cons, Insn.field.injEq, reduceCtorEq, List.not_mem_nil,
        or_false] at isInsn
      rcases isInsn with ⟨-, rfl, -⟩ | ⟨-, rfl, -⟩ <;> rfl
    rw [ClassSet.meantField?, throughParent, parent] at meant
    obtain ⟨_, -, same⟩ := Option.map_eq_some_iff.1 meant
    exact (Prod.mk.inj same).1.symm

theorem candidates_staticFamily (owner : String) :
    (staticFamily owner).candidates = [⟨1⟩, ⟨0⟩] :=
  ClassSet.candidates_of_sorted (.swap _ _ _)
    (show ["p/C", "p/P"].Pairwise (compare · · = .lt) by decide)

theorem resolve_keepsApart_staticFamily :
    let found := readFound "~x" "~y"
    (staticFamily "p/P").resolve (namesRead "p/P" "x" "y") {}
        ((staticFamily "p/P").verify (namesRead "p/P" "x" "y")) {} = .ok found ∧
      found.scope.fields.get? ⟨0⟩ = some ⟨"~x", "I"⟩ ∧
      ∀ y, found.scope.fields.get? y = some ⟨"~x", "I"⟩ →
        ((staticFamily "p/P").fieldAt ⟨0⟩).declaredBy =
          ((staticFamily "p/P").fieldAt y).declaredBy →
        ⟨0⟩ = y := by
  have resolved : (staticFamily "p/P").resolve (namesRead "p/P" "x" "y") {}
      ((staticFamily "p/P").verify (namesRead "p/P" "x" "y")) {} = .ok (readFound "~x" "~y") :=
    ClassSet.resolve_of_candidates (candidates_staticFamily _) (by decide)
      (by with_unfolding_all decide)
  have isFirst : (readFound "~x" "~y").scope.fields.get? ⟨0⟩ = some ⟨"~x", "I"⟩ := by
    decide
  refine ⟨resolved, isFirst, fun y isSecond same => ?_⟩
  refine (ClassSet.resolve_keepsApart resolved).1 _ ⟨0⟩ y isFirst isSecond same fun cls names => ?_
  have own : ((staticFamily "p/P").fieldAt ⟨0⟩).declaredBy = ⟨0⟩ := by with_unfolding_all decide
  rw [own]
  rcases names with names | names <;> exact declares_of_namesRead names

/-- Inheritance among the two classes has been worked out. -/
theorem prepare_staticFamily :
    ((ClassSet.insert? {} staticFields none false).bind fun set =>
        set.insert? (readsStatics "p/C") none false).map (fun set => ClassSet.prepare.run set) =
      some (.ok () (staticFamily "p/C")) := by
  have inserted : ((ClassSet.insert? {} staticFields none false).bind fun set =>
      set.insert? (readsStatics "p/C") none false) =
        some { staticFamily "p/C" with classes := (staticFamily "p/C").classes.pop } := by
    with_unfolding_all decide
  have before : { staticFamily "p/C" with
      classes := (staticFamily "p/C").classes.pop : ClassSet }.candidates = [⟨1⟩, ⟨0⟩] :=
    ClassSet.candidates_of_sorted (by decide) (by decide)
  have shared : ClassSet.shareInherited.run { staticFamily "p/C" with
      classes := (staticFamily "p/C").classes.pop } =
      .ok () { staticFamily "p/C" with classes := (staticFamily "p/C").classes.pop } := by
    rw [ClassSet.shareInherited_of_candidates before]
    with_unfolding_all decide
  rw [inserted, Option.map_some, ClassSet.prepare_of_candidates shared before]
  with_unfolding_all decide

/-- Through a subclass, one name is accepted for two static fields. -/
theorem resolve_sharesKey :
    (∃ set, ((ClassSet.insert? {} staticFields none false).bind fun set =>
        set.insert? (readsStatics "p/C") none false) = some set ∧
        ClassSet.prepare.run set = .ok () (staticFamily "p/C")) ∧
      ∃ r, (staticFamily "p/C").resolve (namesRead "p/C" "x" "x") {}
          ((staticFamily "p/C").verify (namesRead "p/C" "x" "x")) {} = .ok r ∧
        r.scope.fields.get? ⟨0⟩ = some ⟨"~x", "I"⟩ ∧ r.scope.fields.get? ⟨1⟩ = some ⟨"~x", "I"⟩ ∧
        ((staticFamily "p/C").fieldAt ⟨0⟩).declaredBy =
          ((staticFamily "p/C").fieldAt ⟨1⟩).declaredBy := by
  have resolved : (staticFamily "p/C").resolve (namesRead "p/C" "x" "x") {}
      ((staticFamily "p/C").verify (namesRead "p/C" "x" "x")) {} = .ok (readFound "~x" "~x") :=
    ClassSet.resolve_of_candidates (candidates_staticFamily _) (by decide)
      (by with_unfolding_all decide)
  exact ⟨Option.map_eq_some_iff.1 prepare_staticFamily, _, resolved, by with_unfolding_all decide⟩

end JvmPatch
