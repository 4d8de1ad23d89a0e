import JvmPatch.Proofs.Apply.Additions
import JvmPatch.Proofs.Apply.MemberNames
import JvmPatch.Proofs.Apply.Splicing

/-! The instructions that are made of the added lines of a script. Each added line for an
instruction becomes one, in a state in which everything is declared, so that the names of members
mean in it what they mean when the whole script has been applied. -/

set_option autoImplicit false

namespace JvmPatch

/-- The block whose lines are carried out. -/
def PendingBody.block : PendingBody → MethodBlock
  | .added _ block | .matched _ _ block => block

/-- A step of the body phase has made instructions of the added lines of its block, given by their
numbers, and has put them into a body. -/
structure PendingBody.Carries (p : PendingBody) (s t : ApplyState)
    (added : List (Nat × Insn)) : Prop where
  adds : ∃ body type next regions names code,
    BodyContext.Adds ⟨s.classes, body, type⟩ 0 p.block.insns ⟨s.scope, next⟩ added regions names ∧
      (t.classes.methodAt body).code = some code ∧ (added.map Prod.snd).Sublist code.insns

/-- The body phase makes an instruction of a line of one of the blocks. -/
inductive Makes (l : InsnLine) (insn : Insn) : ApplyState → List PendingBody → Prop where
  | here {s t p pending added k} : (ApplyM.applyBody p).run s = .ok () t → p.Carries s t added →
      p.block.insns[k]? = some l → (k, insn) ∈ added → Makes l insn s (p :: pending)
  | later {s t p pending} : (ApplyM.applyBody p).run s = .ok () t → Makes l insn t pending →
      Makes l insn s (p :: pending)

/-- When a script is applied, an instruction is made of a line of it. -/
def ClassSet.Makes (set : ClassSet) (script : Script) (r : Resolution) (l : InsnLine)
    (insn : Insn) : Prop :=
  ∃ applied declared, (ApplyM.declare script r.assignment).run ⟨set, r.scope, {}⟩ =
    .ok applied declared ∧ JvmPatch.Makes l insn declared (applied.flatMap Prod.snd)

/-! ### Lines and instructions -/

namespace BodyContext

variable {cx : BodyContext} {index : Nat} {ls : List InsnLine} {names final : Labelling}
  {added : List (Nat × Insn)}
  {regions : List Region}

theorem growsLabels_of_ok {α : Type} {m : InstantiateM α} (builds : BuildsLabels m) {x : α}
    {next : Labelling} (ran : m.run names = .ok x next) : names.scope.GrowsLabels next.scope :=
  (builds names.scope).ok (.refl _) ran

/-- An instruction that is made has a line, and is built where labels have been bound at most. -/
theorem Adds.built (adds : cx.Adds index ls names added regions final) {k : Nat} {insn : Insn}
    (member : (k, insn) ∈ added) :
    index ≤ k ∧ ∃ l before next, ls[k - index]? = some l ∧ l.mode = .add ∧
      names.scope.GrowsLabels before.scope ∧
      (cx.instantiate l.pattern).run before = .ok insn next := by
  induction adds with
  | done => cases member
  | @other index l ls names added regions final _ _ ih =>
    obtain ⟨after, l', before, next, isLine, rest⟩ := ih member
    refine ⟨by omega, l', before, next, ?_, rest⟩
    rwa [show k - index = k - (index + 1) + 1 by omega]
  | @region index l ls names next' region added regions final _ _ ran _ ih =>
    obtain ⟨after, l', before, next, isLine, mode, grows, built⟩ := ih member
    refine ⟨by omega, l', before, next, ?_, mode, ?_, built⟩
    · rwa [show k - index = k - (index + 1) + 1 by omega]
    · exact (growsLabels_of_ok (cx.instantiateRegion_buildsLabels l.pattern) ran).trans grows
  | @insn index l ls names next' insn' added regions final mode _ ran _ ih =>
    rcases List.mem_cons.1 member with same | member
    · cases same
      exact ⟨Nat.le_refl _, l, names, next', by rw [Nat.sub_self]; rfl, mode, .refl _, ran⟩
    · obtain ⟨after, l', before, next, isLine, mode, grows, built⟩ := ih member
      refine ⟨by omega, l', before, next, ?_, mode, ?_, built⟩
      · rwa [show k - index = k - (index + 1) + 1 by omega]
      · exact (growsLabels_of_ok (cx.instantiate_buildsLabels l.pattern) ran).trans grows

/-- An instruction is made of each added line for one. -/
theorem Adds.exists_insn (adds : cx.Adds index ls names added regions final) {k : Nat}
    {l : InsnLine} (isLine : ls[k]? = some l) (mode : l.mode = .add)
    (noRegion : l.pattern.isTryCatch = false) :
    ∃ insn, (index + k, insn) ∈ added := by
  induction adds generalizing k with
  | done => cases isLine
  | other notAdded _ ih =>
    cases k with
    | zero =>
      cases isLine
      exact absurd mode notAdded
    | succ k => simpa [Nat.add_assoc, Nat.add_comm 1] using ih isLine
  | region _ isRegion _ _ ih =>
    cases k with
    | zero =>
      cases isLine
      rw [noRegion] at isRegion
      cases isRegion
    | succ k => simpa [Nat.add_assoc, Nat.add_comm 1] using ih isLine
  | insn _ _ _ _ ih =>
    cases k with
    | zero => exact ⟨_, List.mem_cons_self⟩
    | succ k =>
      obtain ⟨insn, member⟩ := ih isLine
      exact ⟨insn, List.mem_cons_of_mem _ (by simpa [Nat.add_assoc, Nat.add_comm 1] using member)⟩

/-- Adding all lines of a block makes instructions at the anchor. -/
theorem adds_of_addLines (index : Nat) {e t : BodyEdit} (adds : ∀ l ∈ ls, l.mode = .add)
    (h : (ls.forM cx.addLine).run e = .ok () t) :
    ∃ added regions, cx.Adds index ls e.names added regions t.names ∧
      t.inserted = e.inserted ++ added.map fun i => (e.anchor, i.2) := by
  induction ls generalizing index e with
  | nil =>
    cases h
    exact ⟨[], [], .done, (List.append_nil _).symm⟩
  | cons l ls ih =>
    obtain ⟨_, u, one, rest⟩ := run_bind_ok h
    have mode := adds l List.mem_cons_self
    have others := fun l' member => adds l' (List.mem_cons_of_mem l member)
    rcases addLine_ok one with ⟨isRegion, region, names, ran, rfl⟩ | ⟨isInsn, insn, names, ran, rfl⟩
    · obtain ⟨added, regions, adds, inserted⟩ := ih (index + 1) others rest
      exact ⟨added, region :: regions, .region mode isRegion ran adds, inserted⟩
    · obtain ⟨added, regions, adds, inserted⟩ := ih (index + 1) others rest
      refine ⟨(index, insn) :: added, regions, .insn mode isInsn ran adds, ?_⟩
      rw [inserted, List.append_assoc, List.map_cons, List.singleton_append]

end BodyContext

/-! ### Steps of the body phase -/

theorem ClassSet.hasMethod_of_parse {set : ClassSet} {m : MethodId} {type : MethodDesc}
    (parsed : MethodDesc.parse (set.methodAt m).desc = .ok type) : set.HasMethod m := by
  refine Nat.lt_of_not_le fun outside => ?_
  rw [methodAt, Array.getElem?_eq_none outside] at parsed
  cases parsed

/-- The instructions of a body that is built from nothing are those that have been added. -/
theorem BodyEdit.insns_apply_empty {e : BodyEdit} (first : ∀ i ∈ e.inserted, i.1 = 0) :
    (e.apply {}).insns = e.inserted.map Prod.snd := by
  have all : (e.inserted.filter fun i => i.1 == 0) = e.inserted :=
    List.filter_eq_self.2 fun i member => by simp [first i member]
  exact congrArg (List.map Prod.snd) all

/-- The lines of a block that is added are added. -/
def PendingBody.Nested (p : PendingBody) : Prop :=
  ∀ id block, p = .added id block → ∀ l ∈ block.insns, l.mode = .add

namespace ApplyM

variable {s t : ApplyState} {p : PendingBody} {pending : List PendingBody}

theorem buildBody_carries {id : MethodId} {block : MethodBlock}
    (adds : ∀ l ∈ block.insns, l.mode = .add) (h : (buildBody id block).run s = .ok () t) :
    ∃ added, (PendingBody.added id block).Carries s t added := by
  obtain ⟨start, u, got, h⟩ := run_bind_ok h
  cases got
  dsimp only at h
  split at h
  · cases h
  rename_i type isType
  obtain ⟨edit, v, edited, h⟩ := run_bind_ok h
  obtain ⟨code, w, done, h⟩ := run_bind_ok h
  obtain ⟨ran, rfl⟩ := runEdit_ok edited
  obtain ⟨rfl, rfl, -⟩ := checkLabels_of_checked done
  cases h
  obtain ⟨added, regions, made, inserted⟩ := BodyContext.adds_of_addLines 0 adds ran
  rw [List.nil_append] at inserted
  refine ⟨added, ⟨id, type, 0, regions, edit.names, edit.apply {}, made, ?_, ?_⟩⟩
  · exact congrArg (·.code)
      (s.classes.methodAt_modifyMethod_self _ (ClassSet.hasMethod_of_parse isType))
  · have first (i : Nat × Insn) (member : i ∈ edit.inserted) : i.1 = 0 := by
      rw [inserted] at member
      obtain ⟨_, -, rfl⟩ := List.mem_map.1 member
      rfl
    rw [BodyEdit.insns_apply_empty first, inserted, List.map_map]
    exact .refl _

/-- A step that succeeds makes instructions if there are added lines. -/
theorem applyBody_carries (nested : p.Nested) {l : InsnLine} (isLine : l ∈ p.block.insns)
    (mode : l.mode = .add) (h : (applyBody p).run s = .ok () t) : ∃ added, p.Carries s t added := by
  cases p with
  | added id block => exact buildBody_carries (nested id block rfl) h
  | matched cls handle block =>
    have changes : block.changesBody = true := List.any_eq_true.2 ⟨l, isLine, by simp [mode]⟩
    have notEmpty : ¬block.insns.isEmpty = true := by
      rw [List.isEmpty_iff]
      exact List.ne_nil_of_mem isLine
    rw [applyBody, if_neg notEmpty] at h
    obtain ⟨body, type, code, later, added, regions, names, -, -, -, isLater, adds, splices⟩ :=
      changeBody_splices changes h
    exact ⟨added, ⟨body, type, _, regions, names, later, adds, isLater, splices.inOrder⟩⟩

/-- The body phase makes an instruction of every added line for one. -/
theorem exists_makes {l : InsnLine} (nested : ∀ p ∈ pending, p.Nested)
    (h : (pending.forM applyBody).run s = .ok () t) (member : p ∈ pending)
    (isLine : l ∈ p.block.insns) (mode : l.mode = .add) (noRegion : l.pattern.isTryCatch = false) :
    ∃ insn, Makes l insn s pending := by
  induction pending generalizing s with
  | nil => cases member
  | cons p' ps ih =>
    obtain ⟨_, u, one, rest⟩ := run_bind_ok h
    rcases List.mem_cons.1 member with rfl | member
    · obtain ⟨added, carries⟩ := applyBody_carries (nested p List.mem_cons_self) isLine mode one
      obtain ⟨body, type, next, regions, names, code, adds, -⟩ := carries.adds
      obtain ⟨k, isLine⟩ := List.mem_iff_getElem?.1 isLine
      obtain ⟨insn, member⟩ := adds.exists_insn isLine mode noRegion
      exact ⟨insn, .here one carries isLine (by rwa [Nat.zero_add] at member)⟩
    · obtain ⟨insn, makes⟩ := ih (fun q inside => nested q (.tail _ inside)) rest member
      exact ⟨insn, .later one makes⟩

end ApplyM

/-- An instruction that the body phase makes is built where only labels and bodies are not as in its
beginning. -/
theorem Makes.built {l : InsnLine} {insn : Insn} {s : ApplyState} {pending : List PendingBody}
    (makes : Makes l insn s pending) :
    ∃ (cx : BodyContext) (before next : Labelling), cx.classes.shape = s.classes.shape ∧
      s.scope.GrowsLabels before.scope ∧ (cx.instantiate l.pattern).run before = .ok insn next := by
  induction makes with
  | here _ carries isLine member =>
    obtain ⟨body, type, next, regions, names, code, adds, -⟩ := carries.adds
    obtain ⟨-, l', before, after, isLine', -, grows, built⟩ := adds.built member
    obtain rfl := Option.some.inj (isLine.symm.trans isLine')
    exact ⟨_, before, after, rfl, grows, built⟩
  | later one _ ih =>
    obtain ⟨cx, before, after, shape, grows, built⟩ := ih
    have rebuilt := (ApplyM.applyBody_ok one).1
    exact ⟨cx, before, after, shape.trans rebuilt.shape, rebuilt.scope.trans grows, built⟩

/-! ### What the body phase is about -/

namespace ApplyM

variable {s t : ApplyState}

/-- What remains to be done after a method block has its lines, and only added blocks have bodies to
be built. -/
theorem applyMethod_blocks {owner : ClassBlock} {id : ClassId} {block : MethodBlock}
    {choice : Option MethodId} {result : Option MethodId × List PendingBody}
    (h : (applyMethod owner id block choice).run s = .ok result t) :
    (∀ p ∈ result.2, p.block = block ∧ ∀ m b, p = .added m b → b.mode = .add) ∧
      (block.mode ≠ .remove → ∃ p ∈ result.2, p.block = block) := by
  unfold applyMethod at h
  cases mode : block.mode with
  | add =>
    simp only [mode] at h
    obtain ⟨m, u, -, done⟩ := run_bind_ok h
    cases done
    refine ⟨fun p member => ?_, fun _ => ⟨_, List.mem_singleton_self _, rfl⟩⟩
    obtain rfl := List.mem_singleton.1 member
    exact ⟨rfl, fun m b same => (PendingBody.added.inj same).2 ▸ mode⟩
  | remove =>
    simp only [mode] at h
    obtain ⟨handle, u, -, h⟩ := run_bind_ok h
    obtain ⟨start, v, -, h⟩ := run_bind_ok h
    obtain ⟨_, w, -, h⟩ := run_bind_ok h
    obtain ⟨_, x, -, h⟩ := run_bind_ok h
    cases h
    exact ⟨fun _ member => (nomatch member), fun kept => absurd rfl kept⟩
  | keep =>
    simp only [mode] at h
    obtain ⟨handle, u, -, h⟩ := run_bind_ok h
    obtain ⟨_, v, -, h⟩ := run_bind_ok h
    cases h
    refine ⟨fun p member => ?_, fun _ => ⟨_, List.mem_singleton_self _, rfl⟩⟩
    obtain rfl := List.mem_singleton.1 member
    exact ⟨rfl, fun m b same => nomatch same⟩

/-- What remains to be done after a class block is what remains of its method blocks. -/
theorem applyClass_blocks {block : ClassBlock} {choice : ClassChoice}
    {result : ClassChoice × List PendingBody} (full : block.methods.length = choice.methods.length)
    (h : (applyClass block choice).run s = .ok result t) :
    (∀ p ∈ result.2, p.block ∈ block.methods ∧ ∀ m b, p = .added m b → b.mode = .add) ∧
      (block.mode ≠ .remove →
        ∀ b ∈ block.methods, b.mode ≠ .remove → ∃ p ∈ result.2, p.block = b) := by
  obtain ⟨id, u, found, body⟩ := run_bind_ok h
  split at body
  · rename_i removes
    obtain ⟨_, v, -, done⟩ := run_bind_ok body
    cases done
    exact ⟨fun _ member => (nomatch member), fun kept => absurd removes kept⟩
  · obtain ⟨_, u₁, -, body⟩ := run_bind_ok body
    obtain ⟨_, u₂, -, body⟩ := run_bind_ok body
    obtain ⟨fields, u₃, -, body⟩ := run_bind_ok body
    obtain ⟨methods, u₄, methodBlocks, done⟩ := run_bind_ok body
    cases done
    have steps := run_mapM_ok (fun e _ => .applyMethod block id e.1 e.2) methodBlocks
    refine ⟨fun p member => ?_, fun _ b isBlock kept => ?_⟩
    · obtain ⟨y, inside, member⟩ := List.mem_flatMap.1 member
      obtain ⟨e, ofZip, v, w, -, step⟩ := exists_mem_of_mem_right steps inside
      obtain ⟨same, added⟩ := (applyMethod_blocks step).1 p member
      exact ⟨same ▸ (List.of_mem_zip ofZip).1, added⟩
    · have all : (block.methods.zip choice.methods).map Prod.fst = block.methods :=
        List.map_fst_zip (Nat.le_of_eq full)
      rw [← all] at isBlock
      obtain ⟨e, ofZip, rfl⟩ := List.mem_map.1 isBlock
      obtain ⟨y, inside, v, w, -, step⟩ := exists_mem_of_mem_right steps.flip ofZip
      obtain ⟨p, member, same⟩ := (applyMethod_blocks step).2 kept
      exact ⟨p, List.mem_flatMap.2 ⟨y, inside, member⟩, same⟩

/-- What remains to be done when everything is declared is what remains of the method blocks of the
script. -/
theorem declare_blocks {set : ClassSet} {script : Script} {a : Assignment}
    {applied : List (ClassChoice × List PendingBody)} (full : set.FullAssignment script a)
    (h : (declare script a).run s = .ok applied t) :
    (∀ p ∈ applied.flatMap Prod.snd, ∃ c ∈ script.classes, p.block ∈ c.methods ∧
        ∀ m b, p = .added m b → b.mode = .add) ∧
      ∀ c ∈ script.classes, c.mode ≠ .remove → ∀ b ∈ c.methods, b.mode ≠ .remove →
        ∃ p ∈ applied.flatMap Prod.snd, p.block = b := by
  obtain ⟨blocks, u, added, steps⟩ := run_bind_ok h
  have results := run_mapM_ok (fun e _ => .applyClass e.1 e.2) steps
  have prepared := addClasses_ok added
  have lengths {e e' : ClassBlock × ClassChoice} (isBlock : e ∈ script.classes.zip a)
      (ready : Prepared s.classes e e') : e'.1.methods.length = e'.2.methods.length := by
    rw [ready.block, ready.methods]
    exact ((List.forall₂_iff_zip.1 full).2 isBlock).methods.length_eq
  constructor
  · intro p member
    obtain ⟨y, inside, member⟩ := List.mem_flatMap.1 member
    obtain ⟨e', isReady, v, w, -, step⟩ := exists_mem_of_mem_right results inside
    obtain ⟨e, isBlock, ready⟩ := exists_mem_of_mem_right prepared isReady
    obtain ⟨ofClass, added⟩ := (applyClass_blocks (lengths isBlock ready) step).1 p member
    exact ⟨e.1, (List.of_mem_zip isBlock).1, ready.block ▸ ofClass, added⟩
  · intro c isClass kept b ofClass keptBlock
    rw [← List.map_fst_zip (Nat.le_of_eq full.length_eq)] at isClass
    obtain ⟨e, isBlock, rfl⟩ := List.mem_map.1 isClass
    obtain ⟨e', isReady, ready⟩ := exists_mem_of_mem_right prepared.flip isBlock
    obtain ⟨y, inside, v, w, -, step⟩ := exists_mem_of_mem_right results.flip isReady
    have sameBlock : e'.1 = e.1 := ready.block
    obtain ⟨p, member, same⟩ :=
      (applyClass_blocks (lengths isBlock ready) step).2 (sameBlock ▸ kept) b
        (sameBlock ▸ ofClass) keptBlock
    exact ⟨p, List.mem_flatMap.2 ⟨y, inside, member⟩, same⟩

end ApplyM

section Script

variable {set : ClassSet} {script : Script} {r : Resolution} {result : Applied} {l : InsnLine}

/-- When a script is applied, an instruction is made of every added line for one. -/
theorem ClassSet.exists_makes (read : ∀ c ∈ script.classes, c.IsRead)
    (full : set.FullAssignment script r.assignment) (applied : set.apply script r = .ok result)
    (isLine : l ∈ script.addedLines) (noRegion : l.pattern.isTryCatch = false) :
    ∃ insn, set.Makes script r l insn := by
  obtain ⟨choices, declared, final, ran, bodies, -⟩ := apply_runs applied
  obtain ⟨blocks, every⟩ := ApplyM.declare_blocks full ran
  obtain ⟨b, isBlock, isLine⟩ := List.mem_flatMap.1 isLine
  obtain ⟨c, isClass, isBlock⟩ := List.mem_flatMap.1 isBlock
  obtain ⟨isLine, mode⟩ := List.mem_filter.1 isLine
  have mode : l.mode = .add := by simpa using mode
  have keptBlock : b.mode ≠ .remove := by
    intro removes
    have same := ((read c isClass).methods b isBlock).nested l isLine (by simp [removes])
    rw [mode, removes] at same
    cases same
  have kept : c.mode ≠ .remove := by
    intro removes
    exact keptBlock (((read c isClass).nested b isBlock (by simp [removes])).trans removes)
  obtain ⟨p, member, rfl⟩ := every c isClass kept b isBlock keptBlock
  have nested (p : PendingBody) (member : p ∈ choices.flatMap Prod.snd) : p.Nested := by
    rintro id block rfl l inside
    obtain ⟨c, isClass, ofClass, added⟩ := blocks _ member
    have mode := added id block rfl
    exact (((read c isClass).methods block ofClass).nested l inside (by simp [mode])).trans mode
  obtain ⟨insn, makes⟩ := ApplyM.exists_makes nested bodies member isLine mode noRegion
  exact ⟨insn, choices, declared, ran, makes⟩

end Script

/-! ### The names in instructions -/

/-- The members of class sets of one shape are the same but for their bodies. -/
theorem ClassSet.KeepsMembers.of_shape {set later : ClassSet} (same : later.shape = set.shape) :
    set.KeepsMembers later where
  cls id known :=
    ⟨by rwa [HasClass, ← size_shape, same, size_shape],
      same_of_shape (f := fun set => (set.classAt id).name)
        (fun set => set.classAt_shape (·.name) (fun _ => rfl) id)
        same⟩
  method m known :=
    have sizes : later.methods.size = set.methods.size :=
      same_of_shape (f := fun set => set.methods.size) (fun _ => Array.size_map ..) same
    ⟨by rwa [HasMethod, sizes],
      same_of_shape (f := fun set => (set.methodAt m).holding)
        (fun set => set.methodAt_shape MethodEntry.holding (fun _ => rfl) m) same⟩
  field f known :=
    ⟨by rwa [HasField, same_of_shape (f := fun set => set.fields.size) (fun _ => rfl) same],
      same_of_shape (f := fun set => (set.fieldAt f).holding) (fun _ => rfl) same⟩

namespace BodyContext

variable {cx : BodyContext} {names next : Labelling} {insn : Insn}

theorem run_mapped_ok {α : Type} {f : Scope → Except UnboundName α} {x : α}
    (h : (mapped f).run names = .ok x next) : f names.scope = .ok x ∧ next = names := by
  obtain ⟨start, u, got, h⟩ := run_bind_ok h
  cases got
  split at h
  · cases h
    exact ⟨‹_›, rfl⟩
  · cases h

theorem instantiate_field_ok {op : Opcode} {owner ident : Ident} {type : TypeDesc} {desc : String}
    (h : (cx.instantiate (.field op owner ident type desc)).run names = .ok insn next) :
    ∃ name real, names.scope.mapClass cx.classes owner.text = .ok name ∧
      names.scope.mapType cx.classes type = .ok real ∧
      insn = .field op name (memberName ident ((cx.classes.find? name).bind fun id =>
        names.scope.fieldName? cx.classes id (.of ident desc))) real.text := by
  rw [instantiate] at h
  obtain ⟨name, u, ownerRead, rest⟩ := run_bind_ok h
  obtain ⟨isOwner, rfl⟩ := run_mapped_ok ownerRead
  obtain ⟨start, v, got, rest⟩ := run_bind_ok rest
  cases got
  obtain ⟨real, w, typeRead, done⟩ := run_bind_ok rest
  obtain ⟨isType, rfl⟩ := run_mapped_ok typeRead
  cases done
  rw [Option.map_bind]
  simp only [Scope.fieldName?_eq]
  exact ⟨name, real, isOwner, isType, rfl⟩

theorem instantiate_invoke_ok {op : Opcode} {owner ident : Ident} {type : MethodDesc}
    {desc : String} (h : (cx.instantiate (.invoke op owner ident type desc)).run names =
      .ok insn next) :
    ∃ name real isInterface, names.scope.mapClass cx.classes owner.text = .ok name ∧
      names.scope.mapMethod cx.classes type = .ok real ∧
      insn = .invoke op name (memberName ident ((cx.classes.find? name).bind fun id =>
        names.scope.methodName? cx.classes id (.of ident desc))) real.text isInterface := by
  rw [instantiate] at h
  obtain ⟨name, u, ownerRead, rest⟩ := run_bind_ok h
  obtain ⟨isOwner, rfl⟩ := run_mapped_ok ownerRead
  obtain ⟨start, v, got, rest⟩ := run_bind_ok rest
  cases got
  obtain ⟨real, w, typeRead, done⟩ := run_bind_ok rest
  obtain ⟨isType, rfl⟩ := run_mapped_ok typeRead
  cases done
  rw [Option.map_bind]
  simp only [Scope.methodName?_eq]
  exact ⟨name, real, _, isOwner, isType, rfl⟩

end BodyContext

/-- In two states that have the same declared members and in which names stand for the same, a name
that a line for an instruction needs is the same. -/
structure SameNames (s t : ApplyState) : Prop where
  onward : Onward s t
  find : ∀ name, t.classes.find? name = s.classes.find? name
  methods : t.scope.methodName? t.classes = s.scope.methodName? s.classes
  fields : t.scope.fieldName? t.classes = s.scope.fieldName? s.classes

/-- Bodies and labels make no difference to names. -/
theorem SameNames.of_shape {s t : ApplyState} (within : s.scope.Within s.classes)
    (shape : t.classes.shape = s.classes.shape) (classes : t.scope.classes = s.scope.classes)
    (methods : t.scope.methods = s.scope.methods)
    (fields : t.scope.fields = s.scope.fields) : SameNames s t := by
  obtain ⟨set, scope, summary⟩ := t
  have kept : s.classes.KeepsMembers set := .of_shape shape
  have sameClass (key : String) : scope.class? key = s.scope.class? key :=
    congrArg (·.get? key) classes
  refine ⟨.ofKept within kept (fun key id found => (sameClass key).trans found) methods
    fields ?_ summary,
    fun name => ClassSet.same_of_shape (f := fun set => set.find? name)
      (fun set => set.find?_shape name) shape,
    Scope.methodName?_congr within kept methods, Scope.fieldName?_congr within kept fields⟩
  exact fun key id found => (within.kept kept).classes key id ((sameClass key).symm.trans found)

theorem SameNames.of_grows {s t : ApplyState} (within : s.scope.Within s.classes)
    (shape : t.classes.shape = s.classes.shape)
    (grows : s.scope.GrowsLabels t.scope) : SameNames s t :=
  .of_shape within shape grows.classes grows.methods grows.fields

section Script

variable {set : ClassSet} {script : Script} {r : Resolution} {result : Applied}
  {l : InsnLine} {insn : Insn}
  {o : ResolveOptions}

/-- What is assigned to the added lines of a script when it has been applied has been added. -/
theorem ClassSet.apply_added (formed : set.WellFormed)
    (accepted : set.resolve script {} (set.verify script) o = .ok r)
    (applied : set.apply script r = .ok result) :
    (∀ cls l f, script.FieldAdded result.assignment cls l f →
        ApplyState.AddedField ⟨result.classes, result.scope, result.summary⟩ cls l f) ∧
      ∀ cls block m, script.MethodAdded result.assignment cls block m →
        ApplyState.AddedMethod ⟨result.classes, result.scope, result.summary⟩ cls block m := by
  obtain ⟨choices, declared, final, ran, bodies, rfl⟩ := apply_runs applied
  obtain ⟨onward, fields, methods⟩ :=
    ApplyM.declare_added (firstAccepted_of_resolve accepted).full
      (ClassSet.within_of_resolve formed accepted) ran
  have rebuilt := ApplyM.applyBodies_rebuilt bodies
  have same : SameNames declared final := .of_grows onward.within_ rebuilt.shape rebuilt.scope
  exact ⟨fun cls l f added => (fields cls l f added).onward onward.within_ same.onward,
    fun cls block m added => (methods cls block m added).onward onward.within_ same.onward⟩

namespace ClassSet.Makes

/-- An instruction is built where names stand for what they stand for in the end. -/
theorem built (formed : set.WellFormed)
    (accepted : set.resolve script {} (set.verify script) o = .ok r)
    (applied : set.apply script r = .ok result) (makes : set.Makes script r l insn) :
    ∃ (cx : BodyContext) (before next : Labelling), before.scope.Within cx.classes ∧
      SameNames ⟨cx.classes, before.scope, {}⟩ ⟨result.classes, result.scope, result.summary⟩ ∧
      (cx.instantiate l.pattern).run before = .ok insn next := by
  obtain ⟨choices, declared, ran, makes⟩ := makes
  obtain ⟨choices', declared', final, ran', bodies, rfl⟩ := apply_runs applied
  obtain ⟨rfl, rfl⟩ := EStateM.Result.ok.inj (ran.symm.trans ran')
  obtain ⟨cx, before, next, shape, grows, built⟩ := makes.built
  have within := (ApplyM.declare_added (firstAccepted_of_resolve accepted).full
    (ClassSet.within_of_resolve formed accepted) ran).1.within_
  have rebuilt := ApplyM.applyBodies_rebuilt bodies
  have first : SameNames declared ⟨cx.classes, before.scope, {}⟩ := .of_grows within shape grows
  refine ⟨cx, before, next, first.onward.within_, ?_, built⟩
  exact .of_shape first.onward.within_ (rebuilt.shape.trans shape.symm)
    (rebuilt.scope.classes.trans grows.classes.symm)
      (rebuilt.scope.methods.trans grows.methods.symm)
    (rebuilt.scope.fields.trans grows.fields.symm)

theorem field {op : Opcode} {owner ident : Ident} {type : TypeDesc} {desc : String}
    (formed : set.WellFormed) (accepted : set.resolve script {} (set.verify script) o = .ok r)
    (applied : set.apply script r = .ok result)
    (pattern : l.pattern = .field op owner ident type desc) (makes : set.Makes script r l insn) :
    ∃ name real, result.scope.mapClass result.classes owner.text = .ok name ∧
      result.scope.mapType result.classes type = .ok real ∧
      insn = .field op name
        (BodyContext.memberName ident ((result.classes.find? name).bind fun id =>
        result.scope.fieldName? result.classes id (.of ident desc))) real.text := by
  obtain ⟨cx, before, next, within, same, built⟩ := makes.built formed accepted applied
  rw [pattern] at built
  obtain ⟨name, real, isOwner, isType, rfl⟩ := BodyContext.instantiate_field_ok built
  refine ⟨name, real, same.onward.mapClass within isOwner, same.onward.mapType within isType, ?_⟩
  rw [same.find, same.fields]

theorem invoke {op : Opcode} {owner ident : Ident} {type : MethodDesc} {desc : String}
    (formed : set.WellFormed) (accepted : set.resolve script {} (set.verify script) o = .ok r)
    (applied : set.apply script r = .ok result)
    (pattern : l.pattern = .invoke op owner ident type desc) (makes : set.Makes script r l insn) :
    ∃ name real isInterface, result.scope.mapClass result.classes owner.text = .ok name ∧
      result.scope.mapMethod result.classes type = .ok real ∧
      insn = .invoke op name
        (BodyContext.memberName ident ((result.classes.find? name).bind fun id =>
        result.scope.methodName? result.classes id (.of ident desc))) real.text isInterface := by
  obtain ⟨cx, before, next, within, same, built⟩ := makes.built formed accepted applied
  rw [pattern] at built
  obtain ⟨name, real, isInterface, isOwner, isType, rfl⟩ := BodyContext.instantiate_invoke_ok built
  refine ⟨name, real, isInterface, same.onward.mapClass within isOwner,
    same.onward.mapMethod within isType, ?_⟩
  rw [same.find, same.methods]

end ClassSet.Makes

/-- A line for an instruction refers to a field of a class by a name and a descriptor. -/
def InsnLine.RefersToField (l : InsnLine) (result : Applied) (op : Opcode) (cls : ClassId)
    (ident : Ident) (desc : String) : Prop :=
  ∃ owner type name, l.pattern = .field op owner ident type desc ∧
    result.scope.mapClass result.classes owner.text = .ok name ∧
      result.classes.find? name = some cls

/-- A line for an instruction refers to a method of a class by a name and a descriptor. -/
def InsnLine.RefersToMethod (l : InsnLine) (result : Applied) (op : Opcode) (cls : ClassId)
    (ident : Ident) (desc : String) : Prop :=
  ∃ owner type name, l.pattern = .invoke op owner ident type desc ∧
    result.scope.mapClass result.classes owner.text = .ok name ∧
      result.classes.find? name = some cls

theorem Script.FieldAdded.isRead {a : Assignment} {cls : ClassId} {line : FieldLine} {f : FieldId}
    (read : ∀ c ∈ script.classes, c.IsRead)
    (added : script.FieldAdded a cls line f) : line.IsRead := by
  obtain ⟨-, e, isBlock, -, isField⟩ := added
  exact (read e.1 (List.of_mem_zip isBlock).1).fields line (List.of_mem_zip isField).1

theorem Script.MethodAdded.isRead {a : Assignment} {cls : ClassId} {block : MethodBlock}
    {m : MethodId} (read : ∀ c ∈ script.classes, c.IsRead)
    (added : script.MethodAdded a cls block m) : block.IsRead := by
  obtain ⟨-, e, isBlock, -, isMethod⟩ := added
  exact (read e.1 (List.of_mem_zip isBlock).1).methods block (List.of_mem_zip isMethod).1

namespace ClassSet

variable {op : Opcode} {cls : ClassId}

/-- An added instruction refers to an added field by the name and the descriptor that the field has
got. -/
theorem Makes.field_of_added {line : FieldLine} {f : FieldId} (formed : set.WellFormed)
    (read : ∀ c ∈ script.classes, c.IsRead)
    (accepted : set.resolve script {} (set.verify script) o = .ok r)
    (applied : set.apply script r = .ok result)
    (added : script.FieldAdded result.assignment cls line f) (weak : line.ident.weak = true)
    (isLine : l ∈ script.addedLines) (refers : l.RefersToField result op cls line.ident line.desc)
    (makes : set.Makes script r l insn) :
    insn = .field op (result.classes.classAt cls).name (result.classes.fieldAt f).name
      (result.classes.fieldAt f).desc := by
  obtain ⟨owner, type, name, pattern, isOwner, found⟩ := refers
  obtain ⟨isRead, mode⟩ := Script.isRead_of_addedLines read isLine
  have closed := Pattern.hasWildcard_of_checkAddable (isRead.canBeAdded mode).addable
  have typed := isRead.typeIsRead
  obtain ⟨_, real, isOwner', isType, rfl⟩ := makes.field formed accepted applied pattern
  rw [pattern] at closed typed
  obtain rfl := Except.ok.inj (isOwner'.symm.trans isOwner)
  obtain rfl := Except.ok.inj (typed.symm.trans (added.isRead read).type)
  simp only [Pattern.hasWildcard, Bool.or_eq_false_iff] at closed
  have bindable : line.ident.isBindable = true := by rw [Ident.isBindable, weak, closed.1.2]; rfl
  have known := (apply_added formed accepted applied).1 cls line f added
  obtain ⟨real', isType', isDesc⟩ := known.desc
  obtain rfl := Except.ok.inj (isType'.symm.trans isType)
  rw [found, Option.bind_some, known.name bindable, BodyContext.memberName, if_pos weak,
    Option.getD_some, isDesc, (find?_eq_some found).2]

/-- An added instruction refers to an added method by the descriptor that the method has got and by
its name, unless the method has got the name of one that its class does not have. -/
theorem Makes.invoke_of_added {block : MethodBlock} {m : MethodId} (formed : set.WellFormed)
    (read : ∀ c ∈ script.classes, c.IsRead)
    (accepted : set.resolve script {} (set.verify script) o = .ok r)
    (applied : set.apply script r = .ok result)
    (added : script.MethodAdded result.assignment cls block m) (weak : block.ident.weak = true)
    (isLine : l ∈ script.addedLines)
    (refers : l.RefersToMethod result op cls block.ident block.desc)
    (makes : set.Makes script r l insn) :
    ∃ name isInterface,
      insn = .invoke op (result.classes.classAt cls).name name
        (result.classes.methodAt m).desc isInterface ∧
        (name = (result.classes.methodAt m).name ∨ name = block.ident.name ∧
          block.access = Access.isPublic ∧
          result.scope.Lends result.classes cls (.of block.ident block.desc)
            (result.classes.methodAt m).name) := by
  obtain ⟨owner, type, name, pattern, isOwner, found⟩ := refers
  obtain ⟨isRead, mode⟩ := Script.isRead_of_addedLines read isLine
  have closed := Pattern.hasWildcard_of_checkAddable (isRead.canBeAdded mode).addable
  have typed := isRead.typeIsRead
  obtain ⟨_, real, isInterface, isOwner', isType, rfl⟩ :=
    makes.invoke formed accepted applied pattern
  rw [pattern] at closed typed
  obtain rfl := Except.ok.inj (isOwner'.symm.trans isOwner)
  obtain rfl := Except.ok.inj (typed.symm.trans (added.isRead read).type)
  simp only [Pattern.hasWildcard, Bool.or_eq_false_iff] at closed
  have bindable : block.ident.isBindable = true := by rw [Ident.isBindable, weak, closed.1.1.2]; rfl
  have known := (apply_added formed accepted applied).2 cls block m added
  obtain ⟨real', isType', isDesc⟩ := known.desc
  obtain rfl := Except.ok.inj (isType'.symm.trans isType)
  refine ⟨_, isInterface, by rw [isDesc, (find?_eq_some found).2], ?_⟩
  rw [found, Option.bind_some, BodyContext.memberName, if_pos weak]
  rcases known.name bindable with stands | ⟨written, isPublic, lends⟩
  · exact .inl (by rw [stands, Option.getD_some])
  · refine .inr ⟨?_, isPublic, lends⟩
    cases stands : result.scope.methodName? result.classes cls (.of block.ident block.desc) with
    | none => rfl
    | some name => exact written name stands

/-- If a script is accepted and applied, each added line for an instruction becomes one; and if it
refers by a weak name to a member that the script has added, the instruction has the descriptor of
the member. It has its name, too, unless the member is a public method of the instance that has got
its name from a method that its class does not have when the instruction is made; then it has the
name that is written. -/
theorem apply_refersToAdded {text : String} (formed : set.WellFormed)
    (parsed : Script.parse text = .ok script)
    (accepted : set.resolve script {} (set.verify script) o = .ok r)
    (applied : set.apply script r = .ok result) :
    (∀ cls line f l op, script.FieldAdded result.assignment cls line f → line.ident.weak = true →
      l ∈ script.addedLines → l.RefersToField result op cls line.ident line.desc →
        (∃ insn, set.Makes script r l insn) ∧ ∀ insn, set.Makes script r l insn →
          insn = .field op (result.classes.classAt cls).name (result.classes.fieldAt f).name
            (result.classes.fieldAt f).desc) ∧
      ∀ cls block m l op, script.MethodAdded result.assignment cls block m →
        block.ident.weak = true →
        l ∈ script.addedLines → l.RefersToMethod result op cls block.ident block.desc →
          (∃ insn, set.Makes script r l insn) ∧ ∀ insn, set.Makes script r l insn →
            ∃ name isInterface,
            insn = .invoke op (result.classes.classAt cls).name name
              (result.classes.methodAt m).desc isInterface ∧
              (name = (result.classes.methodAt m).name ∨ name = block.ident.name ∧
                block.access = Access.isPublic ∧
                result.scope.Lends result.classes cls (.of block.ident block.desc)
                  (result.classes.methodAt m).name) := by
  have read := Script.parse_isRead parsed
  have full := (firstAccepted_of_resolve accepted).full
  constructor
  · intro cls line f l op added weak isLine refers
    refine ⟨exists_makes read full applied isLine ?_, fun insn makes =>
      makes.field_of_added formed read accepted applied added weak isLine refers⟩
    obtain ⟨owner, type, name, pattern, -⟩ := refers
    rw [pattern]
    rfl
  · intro cls block m l op added weak isLine refers
    refine ⟨exists_makes read full applied isLine ?_, fun insn makes =>
      makes.invoke_of_added formed read accepted applied added weak isLine refers⟩
    obtain ⟨owner, type, name, pattern, -⟩ := refers
    rw [pattern]
    rfl

end ClassSet

end Script

namespace ClassSet

def readsOwnField : InsnLine :=
  ⟨.add, .field Opcode.getfield, .field Opcode.getfield ⟨"a/C", false⟩ ⟨"x", true⟩ ⟨0, .int⟩ "I", 6,
    "+get-field a/C ~x I"⟩

def callsOwnMethod : InsnLine :=
  ⟨.add, .invoke Opcode.invokevirtual,
    .invoke Opcode.invokevirtual ⟨"a/C", false⟩ ⟨"m", true⟩ ⟨[], .void⟩ "()V", 9,
    "+invoke-virtual a/C ~m ()V"⟩

/-- A field that is added by a weak name. -/
def ownField : FieldLine := ⟨.add, ⟨"x", true⟩, "I", ⟨0, .int⟩, false, false, none, 3⟩

/-- A method that is added by a weak name and that uses the members of its class. -/
def ownMethod : MethodBlock :=
  ⟨.add, ⟨"m", true⟩, "()V", ⟨[], .void⟩, false, false, false,
    [⟨.add, .var Opcode.aload, .var Opcode.aload (.is 0), 5, "+load-object 0"⟩, readsOwnField,
      ⟨.add, .single Opcode.pop, .single Opcode.pop, 7, "+pop"⟩,
      ⟨.add, .var Opcode.aload, .var Opcode.aload (.is 0), 8, "+load-object 0"⟩, callsOwnMethod,
      ⟨.add, .ret, .ret, 10, "+return"⟩], 4⟩

def usesOwnBlock : ClassBlock :=
  ⟨.add, .ordinary, ⟨"a/C", false⟩, 1, [⟨.add, ⟨"a/A", false⟩⟩], [], [ownField], [ownMethod]⟩

def usesOwnText : String :=
  "+class a/C\n+super a/A\n+field ~x I\n+method ~m ()V\n+load-object 0\n+get-field a/C ~x I\n+pop\n" ++
    "+load-object 0\n+invoke-virtual a/C ~m ()V\n+return\n+end-method\n+end-class\n"

/-- Nothing is assigned to added blocks. -/
def usesOwnFound : Resolution := ⟨{}, [⟨none, [none], [none]⟩]⟩

theorem parse_usesOwn : Script.parse usesOwnText = .ok ⟨[usesOwnBlock]⟩ :=
  Script.parse_of_toList (Script.toList_append_of String.toList_ofList String.toList_ofList)
    (by decide +kernel)

/-- The first class gets a field and a method with the names that are written. -/
theorem apply_usesOwn :
    ∃ result, apply {} ⟨[usesOwnBlock]⟩ usesOwnFound = .ok result ∧
      result.assignment = [⟨some ⟨0⟩, [some ⟨0⟩], [some ⟨0⟩]⟩] ∧
        result.classes.find? "a/C" = some ⟨0⟩ ∧
      (result.classes.fieldAt ⟨0⟩).holding = ⟨"x", "I", ⟨0⟩, [⟨0⟩]⟩ ∧
      (result.classes.methodAt ⟨0⟩).holding = ⟨"m", "()V", ⟨0⟩, [⟨0⟩]⟩ := by
  have runs : (apply {} ⟨[usesOwnBlock]⟩ usesOwnFound).toOption.map (fun result =>
      (result.assignment, result.classes.find? "a/C", (result.classes.fieldAt ⟨0⟩).holding,
        (result.classes.methodAt ⟨0⟩).holding)) =
    some ([⟨some ⟨0⟩, [some ⟨0⟩], [some ⟨0⟩]⟩], some ⟨0⟩, ⟨"x", "I", ⟨0⟩, [⟨0⟩]⟩,
      ⟨"m", "()V", ⟨0⟩, [⟨0⟩]⟩) := by
    decide +kernel
  obtain ⟨result, applied, same⟩ := exists_ok_of_map runs
  simp only [Prod.mk.injEq] at same
  exact ⟨result, applied, same⟩

theorem apply_refersToAdded_usesOwn :
    ∃ result, apply {} ⟨[usesOwnBlock]⟩ usesOwnFound = .ok result ∧
      (∀ insn, ClassSet.Makes {} ⟨[usesOwnBlock]⟩ usesOwnFound readsOwnField insn →
        insn = .field Opcode.getfield "a/C" "x" "I") ∧
      (∃ insn, ClassSet.Makes {} ⟨[usesOwnBlock]⟩ usesOwnFound callsOwnMethod insn) ∧
      ∀ insn, ClassSet.Makes {} ⟨[usesOwnBlock]⟩ usesOwnFound callsOwnMethod insn →
        ∃ isInterface, insn = .invoke Opcode.invokevirtual "a/C" "m" "()V" isInterface := by
  obtain ⟨result, applied, assigned, found, isField, isMethod⟩ := apply_usesOwn
  obtain ⟨fields, methods⟩ := apply_refersToAdded (wellFormed_empty []) parse_usesOwn
    (show resolve {} ⟨[usesOwnBlock]⟩ {} (verify {} ⟨[usesOwnBlock]⟩) {} =
      .ok usesOwnFound by decide +kernel) applied
  have fieldName : (result.classes.fieldAt ⟨0⟩).name = "x" := congrArg Holding.name isField
  have fieldDesc : (result.classes.fieldAt ⟨0⟩).desc = "I" := congrArg Holding.desc isField
  have methodName : (result.classes.methodAt ⟨0⟩).name = "m" := congrArg Holding.name isMethod
  have methodDesc : (result.classes.methodAt ⟨0⟩).desc = "()V" := congrArg Holding.desc isMethod
  have className := (find?_eq_some found).2
  have inZip : (usesOwnBlock,
      ⟨some ⟨0⟩, [some ⟨0⟩], [some ⟨0⟩]⟩) ∈ [usesOwnBlock].zip result.assignment := by
    rw [assigned]
    exact List.mem_cons_self
  have read := (fields ⟨0⟩ ownField ⟨0⟩ readsOwnField Opcode.getfield
    ⟨rfl, _, inZip, rfl, List.mem_cons_self⟩ rfl (by decide) ⟨_, _, _, rfl, rfl, found⟩).2
  have called := methods ⟨0⟩ ownMethod ⟨0⟩ callsOwnMethod Opcode.invokevirtual
    ⟨rfl, _, inZip, rfl, List.mem_cons_self⟩ rfl (by decide) ⟨_, _, _, rfl, rfl, found⟩
  refine ⟨result, applied, fun insn makes => ?_, called.1, fun insn makes => ?_⟩
  · rw [read insn makes, className, fieldName, fieldDesc]
  · obtain ⟨name, isInterface, rfl, same | ⟨same, -⟩⟩ := called.2 insn makes
    · exact ⟨isInterface, by rw [className, same, methodName, methodDesc]⟩
    · exact ⟨isInterface, by rw [className, same, methodDesc]; rfl⟩

/-- The same class is added, and the weak name of its method is found for a method of the
superclass. -/
def overridesFoo : Script :=
  ⟨[usesOwnBlock, ⟨.keep, .ordinary, ⟨"a/A", false⟩, 13, [], [], [],
    [⟨.keep, ⟨"m", true⟩, "()V", ⟨[], .void⟩, false, false, false, [], 14⟩]⟩]⟩

/-- The weak name stands for the method of the superclass. -/
def overridesFooFound : Resolution :=
  ⟨{ methods := .insert .empty ⟨0⟩ ⟨"~m", "()V"⟩ },
    [⟨none, [none], [none]⟩, ⟨some ⟨0⟩, [], [some ⟨0⟩]⟩]⟩

/-- The added method has got the name of the method that it overrides, and the call of it has
not. -/
theorem added_call_misses :
    ∃ (set : ClassSet) (result : Applied) (insn : Insn), set.WellFormed ∧
      Script.parse (usesOwnText ++ ".class a/A\n.method ~m ()V\n.end-method\n.end-class\n") =
        .ok overridesFoo ∧
      set.resolve overridesFoo {} (set.verify overridesFoo) {} = .ok overridesFooFound ∧
      set.apply overridesFoo overridesFooFound = .ok result ∧
      overridesFoo.MethodAdded result.assignment ⟨1⟩ ownMethod ⟨1⟩ ∧
        callsOwnMethod ∈ overridesFoo.addedLines ∧
      callsOwnMethod.RefersToMethod result Opcode.invokevirtual ⟨1⟩ ownMethod.ident ownMethod.desc ∧
      set.Makes overridesFoo overridesFooFound callsOwnMethod insn ∧
      ∀ op owner desc isInterface,
        insn ≠ .invoke op owner (result.classes.methodAt ⟨1⟩).name desc isInterface := by
  have added : Attained IsRead (fun _ _ _ => True) (afterApply {} addsFoo addsLoopFound) :=
    .apply (o := {}) (.empty []) (by decide) trivial
  have parsed : Script.parse
      (usesOwnText ++ ".class a/A\n.method ~m ()V\n.end-method\n.end-class\n") =
      .ok overridesFoo :=
    Script.parse_of_toList
      (Script.toList_append_of (Script.toList_append_of String.toList_ofList String.toList_ofList)
      String.toList_ofList) (by decide +kernel)
  have accepted : (afterApply {} addsFoo addsLoopFound).resolve overridesFoo {}
      ((afterApply {} addsFoo addsLoopFound).verify overridesFoo) {} = .ok overridesFooFound := by
        decide +kernel
  have runs : ((afterApply {} addsFoo addsLoopFound).apply overridesFoo
      overridesFooFound).toOption.map (fun result =>
      (result.assignment, result.classes.find? "a/C", (result.classes.methodAt ⟨1⟩).name,
        result.scope.methodName? result.classes ⟨1⟩ ⟨"~m", "()V"⟩)) =
    some ([⟨some ⟨1⟩, [some ⟨0⟩], [some ⟨1⟩]⟩, ⟨some ⟨0⟩, [], [some ⟨0⟩]⟩], some ⟨1⟩,
      "foo", none) := by
    decide +kernel
  obtain ⟨result, applied, same⟩ := exists_ok_of_map runs
  simp only [Prod.mk.injEq] at same
  obtain ⟨assigned, found, isName, nameless⟩ := same
  have isLine : callsOwnMethod ∈ overridesFoo.addedLines := by decide
  have inZip : (usesOwnBlock,
      ⟨some ⟨1⟩, [some ⟨0⟩], [some ⟨1⟩]⟩) ∈ overridesFoo.classes.zip result.assignment := by
    rw [assigned]
    exact List.mem_cons_self
  obtain ⟨insn, makes⟩ :=
    exists_makes (Script.parse_isRead parsed) (firstAccepted_of_resolve accepted).full applied
    isLine rfl
  obtain ⟨name, real, onInterface, isOwner, -, isInsn⟩ :=
    makes.invoke added.wellFormed accepted applied rfl
  refine ⟨_, result, insn, added.wellFormed, parsed, accepted, applied,
    ⟨rfl, _, inZip, rfl, List.mem_cons_self⟩, isLine, ⟨_, _, _, rfl, rfl, found⟩, makes,
    fun op owner desc isInterface same => ?_⟩
  obtain rfl : "a/C" = name := Except.ok.inj isOwner
  rw [isInsn, found, isName] at same
  have sameName := (Insn.invoke.inj same).2.2.1
  rw [Option.bind_some, show MemberKey.of _ _ = (⟨"~m", "()V"⟩ : MemberKey) from rfl,
    nameless] at sameName
  exact absurd sameName (by decide)

end ClassSet

end JvmPatch
