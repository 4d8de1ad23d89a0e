import JvmPatch.Apply.Body
import JvmPatch.Proofs.Apply.Editing
import JvmPatch.Proofs.Renumbering.Matching

/-! Building instructions in class sets that differ in numbers only. A line that is added stands for
the same instruction in both bodies, and a line that was found is still where it was found in both
or in neither, if no name is tied in the scope. -/

set_option autoImplicit false

namespace JvmPatch

/-- The scopes differ in numbers only, no name is tied in them, and the same labels are free. -/
structure Labelling.Renumbered (ρ : Renumbering) (set : ClassSet)
    (names names' : Labelling) : Prop where
  scope : Scope.RenumberedUntied ρ set names.scope names'.scope
  nextLabel : names'.nextLabel = names.nextLabel

/-- From such scopes, two programs build the same or fail for the same reason, and leave such
scopes. -/
abbrev SameBuild {ε α : Type} (ρ : Renumbering) (set : ClassSet)
    (m m' : EStateM ε Labelling α) : Prop :=
  Agree (Labelling.Renumbered ρ set) (fun x y => y = x) m m'

namespace SameBuild

variable {ρ : Renumbering} {set : ClassSet}

theorem value {α : Type} (o : Operand α) : SameBuild ρ set o.value o.value := by
  cases o with
  | any => exact .throw _ _ _
  | is value => exact .pure rfl

theorem mapped {α : Type} {f g : Scope → Except UnboundName α}
    (same : ∀ s t, Scope.Renumbered ρ set s t → g t = f s) :
    SameBuild ρ set (BodyContext.mapped f) (BodyContext.mapped g) := by
  refine .get fun s t related => ?_
  rw [same s.scope t.scope related.scope.1]
  cases f s.scope with
  | ok x => exact .ok rfl related
  | error e => exact .error related

end SameBuild

namespace BodyContext.Renumbered

variable {ρ : Renumbering} {cx cx' : BodyContext} (alike : BodyContext.Renumbered ρ cx cx')
include alike

theorem labelFor (l : LabelRef) : SameBuild ρ cx.classes (cx.labelFor l) (cx'.labelFor l) := by
  cases l with
  | any => exact .throw _ _ _
  | weak name =>
    refine .get fun s t related => ?_
    dsimp only
    rw [alike.body, related.scope.1.label?, related.nextLabel]
    cases s.scope.label? cx.body name with
    | some bound => exact .ok rfl related
    | none =>
      dsimp only
      have bound := related.scope.1.bindLabel? cx.body name ⟨s.nextLabel⟩
      cases free : s.scope.bindLabel? cx.body name ⟨s.nextLabel⟩ <;>
        cases free' : t.scope.bindLabel? (ρ.method cx.body) name ⟨s.nextLabel⟩ <;>
          rw [free, free'] at bound <;>
        cases bound
      · exact .error ⟨related.scope, rfl⟩
      · have grows := Scope.GrowsLabels.ofBind free
        exact .ok rfl ⟨⟨‹_›, related.scope.2.congr grows.methods grows.fields⟩, rfl⟩

theorem mapClass (name : String) :
    SameBuild ρ cx.classes (mapped fun scope => scope.mapClass cx.classes name)
    (mapped fun scope => scope.mapClass cx'.classes name) :=
  .mapped fun _ _ renumbered => renumbered.mapClass alike.classes name

theorem mapType (type : TypeDesc) :
    SameBuild ρ cx.classes (mapped fun scope => scope.mapType cx.classes type)
    (mapped fun scope => scope.mapType cx'.classes type) :=
  .mapped fun _ _ renumbered => renumbered.mapType alike.classes type

theorem mapMethod (type : MethodDesc) :
    SameBuild ρ cx.classes (mapped fun scope => scope.mapMethod cx.classes type)
    (mapped fun scope => scope.mapMethod cx'.classes type) :=
  .mapped fun _ _ renumbered => renumbered.mapMethod alike.classes type

theorem classOperandFor (type : TypeDesc) :
    SameBuild ρ cx.classes (cx.classOperandFor type) (cx'.classOperandFor type) :=
  (alike.mapType type).bindSame fun _ => .pure rfl

/-- A pattern stands for the same instruction in both bodies. -/
theorem instantiate (pattern : Pattern) :
    SameBuild ρ cx.classes (cx.instantiate pattern) (cx'.instantiate pattern) := by
  unfold BodyContext.instantiate
  split
  case h_1 | h_2 => exact .throw _ _ _
  case h_3 => exact (alike.labelFor _).bindSame fun _ => .pure rfl
  case h_4 => exact .pure rfl
  case h_5 =>
    rw [alike.type]
    exact .pure rfl
  case h_6 | h_7 | h_8 | h_9 | h_10 | h_12 => exact (SameBuild.value _).bindSame fun _ => .pure rfl
  case h_11 | h_19 =>
    exact (SameBuild.value _).bindSame fun _ =>
      (alike.classOperandFor _).bindSame fun _ => .pure rfl
  case h_13 =>
    exact (SameBuild.value _).bindSame fun _ => (SameBuild.value _).bindSame fun _ => .pure rfl
  case h_14 => exact (alike.labelFor _).bindSame fun _ => .pure rfl
  case h_15 =>
    refine (SameBuild.value _).bindSame fun _ => (SameBuild.value _).bindSame fun _ =>
      (alike.labelFor _).bindSame fun _ => ?_
    exact (Agree.mapMSame fun l _ => alike.labelFor l).bindSame fun _ => .pure rfl
  case h_16 =>
    refine (alike.labelFor _).bindSame fun _ =>
      (Agree.mapMSame fun c _ => ?_).bindSame fun _ => .pure rfl
    exact (SameBuild.value _).bindSame fun _ => (alike.labelFor _).bindSame fun _ => .pure rfl
  case h_17 op owner name type desc =>
    refine (alike.mapClass _).bindSame fun owner => .read fun s t related => ?_
    have bound : (cx'.classes.find? owner).bind
        (fun id => t.scope.field? cx'.classes id (.of name desc)) =
        ((cx.classes.find? owner).bind
          fun id => s.scope.field? cx.classes id (.of name desc)).map ρ.field := by
      rw [alike.classes.find?]
      cases cx.classes.find? owner with
      | none => rfl
      | some id => exact related.scope.1.field? alike.classes related.scope.2 id _
    dsimp only
    rw [bound, Option.map_map]
    simp only [Function.comp_def, alike.classes.fieldName]
    exact (alike.mapType type).bindSame fun _ => .pure rfl
  case h_18 op owner name type desc =>
    refine (alike.mapClass _).bindSame fun owner => .read fun s t related => ?_
    have bound : (cx'.classes.find? owner).bind
        (fun id => t.scope.method? cx'.classes id (.of name desc)) =
        ((cx.classes.find? owner).bind fun id => s.scope.method? cx.classes id (.of name desc)).map
          ρ.method := by
      rw [alike.classes.find?]
      cases cx.classes.find? owner with
      | none => rfl
      | some id => exact related.scope.1.method? alike.classes related.scope.2 id _
    have isInterface (id : ClassId) :
        (cx'.classes.classAt (ρ.cls id)).isInterface = (cx.classes.classAt id).isInterface :=
      congrArg (·.isInterface) (alike.classes.header id)
    dsimp only
    rw [bound, Option.map_map, alike.classes.find?, Option.any_map]
    simp only [Function.comp_def, alike.classes.methodName, isInterface]
    exact (alike.mapMethod type).bindSame fun _ => .pure rfl
  case h_20 =>
    refine (SameBuild.value _).bindSame fun _ => ?_
    split
    · exact .pure rfl
    · exact (alike.classOperandFor _).bindSame fun _ => .pure rfl
  case h_21 =>
    refine (SameBuild.value _).bindSame fun _ => (alike.mapType _).bindSame fun _ => ?_
    split
    · exact (SameBuild.value _).bindSame fun _ => .pure rfl
    · exact .throw _ _ _

theorem instantiateRegion (pattern : Pattern) :
    SameBuild ρ cx.classes (cx.instantiateRegion pattern) (cx'.instantiateRegion pattern) := by
  unfold BodyContext.instantiateRegion
  split
  · dsimp only
    split
    · refine (alike.classOperandFor _).bindSame fun _ => (alike.labelFor _).bindSame fun _ => ?_
      exact (alike.labelFor _).bindSame fun _ => (alike.labelFor _).bindSame fun _ => .pure rfl
    · refine (alike.labelFor _).bindSame fun _ => (alike.labelFor _).bindSame fun _ => ?_
      exact (alike.labelFor _).bindSame fun _ => .pure rfl
  · exact .throw _ _ _

end BodyContext.Renumbered

/-- The changes so far are the same, with bindings that differ in numbers only. -/
structure BodyEdit.Renumbered (ρ : Renumbering) (set : ClassSet)
    (edit edit' : BodyEdit) : Prop where
  names : edit.names.Renumbered ρ set edit'.names
  cursor : edit'.cursor = edit.cursor
  anchor : edit'.anchor = edit.anchor
  inserted : edit'.inserted = edit.inserted
  removed : edit'.removed = edit.removed
  addedRegions : edit'.addedRegions = edit.addedRegions
  removedRegions : edit'.removedRegions = edit.removedRegions

/-- From such changes, two programs make the same further changes or fail for the same reason. -/
abbrev SameEdit {α : Type} (ρ : Renumbering) (set : ClassSet) (m m' : EditM α) : Prop :=
  Agree (BodyEdit.Renumbered ρ set) (fun x y => y = x) m m'

/-- A body is changed in the same way. -/
theorem BodyEdit.Renumbered.apply {ρ : Renumbering} {set : ClassSet} {edit edit' : BodyEdit}
    (same : BodyEdit.Renumbered ρ set edit edit') (code : Code) :
    edit'.apply code = edit.apply code := by
  have inserted (place : Nat) : edit'.insertedAt place = edit.insertedAt place := by
    rw [BodyEdit.insertedAt, BodyEdit.insertedAt, same.inserted]
  have woven (insns : List Insn) : ∀ place, edit'.weave place insns = edit.weave place insns := by
    induction insns with
    | nil => exact inserted
    | cons insn insns ih =>
      intro place
      rw [BodyEdit.weave, BodyEdit.weave, inserted, same.removed, ih]
  rw [BodyEdit.apply, BodyEdit.apply, BodyEdit.regions, BodyEdit.regions, woven, same.addedRegions,
    same.removedRegions, same.names.nextLabel]

namespace EditM

variable {ρ : Renumbering} {set : ClassSet}

theorem build_alike {α : Type} (line : Nat) {m m' : InstantiateM α}
    (builds : SameBuild ρ set m m') :
    SameEdit ρ set (EditM.build line m) (EditM.build line m') := by
  refine .get fun s t same => ?_
  rcases (builds s.names t.names same.names).cases with
    ⟨x, _, u, v, ran, ran', rfl, left⟩ | ⟨e, u, v, ran, ran', left⟩
  · rw [ran, ran']
    exact .ok rfl { same with names := left }
  · rw [ran, ran']
    exact .error { same with names := left }

end EditM

namespace BodyContext.Renumbered

variable {ρ : Renumbering} {cx cx' : BodyContext} (alike : BodyContext.Renumbered ρ cx cx')
include alike

theorem addLine (l : InsnLine) : SameEdit ρ cx.classes (cx.addLine l) (cx'.addLine l) := by
  unfold BodyContext.addLine
  split
  · refine (EditM.build_alike l.line (alike.instantiateRegion l.pattern)).bindSame fun region => ?_
    exact fun s t same =>
      .ok rfl { same with addedRegions := congrArg (· ++ [region]) same.addedRegions }
  · refine (EditM.build_alike l.line (alike.instantiate l.pattern)).bindSame fun insn =>
      fun s t same => ?_
    exact .ok rfl { same with
      inserted := congrArg₂ (fun is a => is ++ [(a, insn)]) same.inserted same.anchor }

omit alike in
theorem regionLine (ρ : Renumbering) (set : ClassSet) (places : MethodMatch) (index : Nat)
    (l : InsnLine) :
    SameEdit ρ set (BodyContext.regionLine places index l)
      (BodyContext.regionLine places index l) := by
  unfold BodyContext.regionLine
  split
  · exact .throw _ _ _
  rename_i region _
  split
  · exact fun s t same =>
      .ok rfl { same with removedRegions := congrArg (· ++ [region]) same.removedRegions }
  · exact .pure rfl

theorem stillMatches (insns : List Insn) (l : InsnLine) (place : Nat) {scope scope' : Scope}
    (related : Scope.RenumberedUntied ρ cx.classes scope scope') :
    cx'.stillMatches insns l place scope' = cx.stillMatches insns l place scope := by
  unfold BodyContext.stillMatches
  cases insns[place]? with
  | none => rfl
  | some insn => exact (alike.matchInsn l.pattern insn scope scope' related).1

theorem foundLine (insns : List Insn) (places : MethodMatch) (index : Nat) (l : InsnLine) :
    SameEdit ρ cx.classes (cx.foundLine insns places index l)
      (cx'.foundLine insns places index l) := by
  unfold BodyContext.foundLine
  split
  · exact .throw _ _ _
  rename_i place _
  refine .get fun s t same => ?_
  rw [same.cursor, alike.stillMatches insns l place same.names.scope, same.removed]
  split
  · exact .error same
  split
  · exact .ok rfl { same with cursor := rfl, anchor := rfl, removed := rfl }
  · exact .error same

/-- The lines of a block are carried out alike in both bodies. -/
theorem editLines (insns : List Insn) (places : MethodMatch) (lines : List InsnLine) (index : Nat) :
    SameEdit ρ cx.classes (cx.editLines insns places index lines)
      (cx'.editLines insns places index lines) := by
  induction lines generalizing index with
  | nil => exact .pure rfl
  | cons l lines ih =>
    unfold BodyContext.editLines
    split
    · exact (alike.addLine l).bindSame fun _ => ih (index + 1)
    split
    · exact (regionLine ρ _ places index l).bindSame fun _ => ih (index + 1)
    split
    · split
      · refine Agree.bindSame (fun s t same => ?_) fun _ => ih (index + 1)
        exact .ok rfl { same with anchor := rfl }
      · exact ih (index + 1)
    · exact (alike.foundLine insns places index l).bindSame fun _ => ih (index + 1)

end BodyContext.Renumbered

end JvmPatch
