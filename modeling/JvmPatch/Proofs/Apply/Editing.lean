import JvmPatch.Apply.Body
import JvmPatch.Proofs.Resolve.Alignment
import JvmPatch.Proofs.Scope.Binding
import JvmPatch.Proofs.Steps

/-! Carrying out the lines of a method block in a body. The only bindings this adds are those of
labels, and it goes wrong because of a line that has to be found only if that line has no place in
order where the instruction still matches. -/

set_option autoImplicit false

namespace JvmPatch

/-- The only difference between two scopes is that the second one has more labels. -/
structure Scope.GrowsLabels (scope later : Scope) : Prop where
  gains : scope.Gains .everything later
  classes : later.classes = scope.classes
  fields : later.fields = scope.fields
  methods : later.methods = scope.methods
  bodies : later.bodies = scope.bodies

namespace Scope.GrowsLabels

theorem refl (scope : Scope) : scope.GrowsLabels scope := ⟨.refl, rfl, rfl, rfl, rfl⟩

theorem trans {scope later latest : Scope} (first : scope.GrowsLabels later)
    (second : later.GrowsLabels latest) : scope.GrowsLabels latest :=
  ⟨first.gains.trans second.gains, second.classes.trans first.classes,
    second.fields.trans first.fields, second.methods.trans first.methods,
    second.bodies.trans first.bodies⟩

theorem extends_ {scope later : Scope} (grows : scope.GrowsLabels later) : later.Extends scope :=
  grows.gains.extends_

theorem ofBind {scope later : Scope} {body : MethodId} {name : String} {label : Label}
    (bound : scope.bindLabel? body name label = some later) : scope.GrowsLabels later := by
  have gains : scope.Gains .everything later := .single (.label trivial bound)
  rcases bindLabel?_cases bound with rfl | ⟨-, -, rfl⟩
  · exact .refl _
  · exact ⟨gains, rfl, rfl, rfl, rfl⟩

end Scope.GrowsLabels

/-- The labels that are built into a body are all that is bound on the way. -/
def BuildsLabels {ε α : Type} (m : EStateM ε Labelling α) : Prop :=
  ∀ scope : Scope, Preserves (fun names : Labelling => scope.GrowsLabels names.scope) m

namespace BodyContext

theorem value_buildsLabels {α : Type} (o : Operand α) : BuildsLabels o.value := by
  intro scope
  cases o with
  | any => exact .throw _ _
  | is value => exact .pure _ _

theorem labelFor_buildsLabels (cx : BodyContext) (l : LabelRef) : BuildsLabels (cx.labelFor l) := by
  intro scope
  cases l with
  | any => exact .throw _ _
  | weak name =>
    refine .get fun names grows => ?_
    cases bound : names.scope.label? cx.body name with
    | some label => exact grows
    | none =>
      cases free : names.scope.bindLabel? cx.body name ⟨names.nextLabel⟩ with
      | some later =>
        simp only [free]
        exact grows.trans (.ofBind free)
      | none =>
        simp only [free]
        exact grows

theorem mapped_buildsLabels {α : Type} (f : Scope → Except UnboundName α) :
    BuildsLabels (mapped f) := by
  refine fun scope => .get fun names grows => ?_
  cases f names.scope with
  | ok x => exact grows
  | error e => exact grows

theorem classOperandFor_buildsLabels (cx : BodyContext) (type : TypeDesc) :
    BuildsLabels (cx.classOperandFor type) :=
  fun scope => (mapped_buildsLabels _ scope).bind fun _ => .pure _ _

theorem get_buildsLabels : BuildsLabels (get : InstantiateM Labelling) := fun _ _ grows => grows

theorem instantiate_buildsLabels (cx : BodyContext) (pattern : Pattern) :
    BuildsLabels (cx.instantiate pattern) := by
  intro scope
  have label := fun l => cx.labelFor_buildsLabels l scope
  have operand := fun type => cx.classOperandFor_buildsLabels type scope
  unfold instantiate
  split
  case h_1 | h_2 => exact .throw _ _
  case h_3 => exact (label _).bind fun _ => .pure _ _
  case h_4 | h_5 => exact .pure _ _
  case h_6 | h_7 | h_8 | h_9 | h_10 | h_12 =>
    exact (value_buildsLabels _ scope).bind fun _ => .pure _ _
  case h_11 | h_19 =>
    exact (value_buildsLabels _ scope).bind fun _ => (operand _).bind fun _ => .pure _ _
  case h_13 =>
    exact (value_buildsLabels _ scope).bind fun _ => (value_buildsLabels _ scope).bind fun _ =>
      .pure _ _
  case h_14 => exact (label _).bind fun _ => .pure _ _
  case h_15 =>
    exact (value_buildsLabels _ scope).bind fun _ => (value_buildsLabels _ scope).bind fun _ =>
      (label _).bind fun _ => (Preserves.mapM fun l _ => label l).bind fun _ => .pure _ _
  case h_16 =>
    refine (label _).bind fun _ => (Preserves.mapM fun c _ => ?_).bind fun _ => .pure _ _
    exact (value_buildsLabels _ scope).bind fun _ => (label _).bind fun _ => .pure _ _
  case h_17 | h_18 =>
    exact (mapped_buildsLabels _ scope).bind fun _ => (get_buildsLabels scope).bind fun _ =>
      (mapped_buildsLabels _ scope).bind fun _ => .pure _ _
  case h_20 =>
    refine (value_buildsLabels _ scope).bind fun _ => ?_
    split
    · exact .pure _ _
    · exact (operand _).bind fun _ => .pure _ _
  case h_21 =>
    refine (value_buildsLabels _ scope).bind fun _ => (mapped_buildsLabels _ scope).bind fun _ => ?_
    split
    · exact (value_buildsLabels _ scope).bind fun _ => .pure _ _
    · exact .throw _ _

theorem instantiateRegion_buildsLabels (cx : BodyContext) (pattern : Pattern) :
    BuildsLabels (cx.instantiateRegion pattern) := by
  intro scope
  have label := fun l => cx.labelFor_buildsLabels l scope
  unfold instantiateRegion
  split
  · rename_i start stop handler catchType
    have rest : ∀ catchType : Option String, Preserves
        (fun names : Labelling => scope.GrowsLabels names.scope) (do
          let start ← cx.labelFor start
          let stop ← cx.labelFor stop
          let handler ← cx.labelFor handler
          pure (⟨start, stop, handler, catchType⟩ : Region) : InstantiateM Region) :=
      fun _ => (label _).bind fun _ => (label _).bind fun _ => (label _).bind fun _ => .pure _ _
    dsimp only
    split
    · exact (cx.classOperandFor_buildsLabels _ scope).bind fun _ => rest _
    · exact rest _
  · exact .throw _ _

end BodyContext

/-- Whether a line that was found is not where it was found. -/
def EditFault.isInconsistent : EditFault → Bool
  | .instantiate .. => false
  | .inconsistent .. => true

namespace BodyContext

variable {cx : BodyContext} {insns : List Insn} {places : MethodMatch}

theorem run_build {α : Type} (line : Nat) (m : InstantiateM α) (e : BodyEdit) :
    (EditM.build line m).run e =
      match m.run e.names with
      | .ok x names => .ok x { e with names := names }
      | .error cause names => .error (.instantiate line cause) { e with names := names } := by
  change (match m.run e.names with
    | .ok x names => do
      set { e with names := names }
      pure x
    | .error cause names => do
      set { e with names := names }
      throw (.instantiate line cause) : EditM α).run e = _
  cases m.run e.names <;> rfl

/-- A line that is added builds a region or an instruction. -/
theorem addLine_ok {l : InsnLine} {e t : BodyEdit} (h : (cx.addLine l).run e = .ok () t) :
    (l.pattern.isTryCatch = true ∧ ∃ region names,
        (cx.instantiateRegion l.pattern).run e.names = .ok region names ∧
          t = { e with names := names, addedRegions := e.addedRegions ++ [region] }) ∨
      (l.pattern.isTryCatch = false ∧ ∃ insn names,
        (cx.instantiate l.pattern).run e.names = .ok insn names ∧
          t = { e with names := names, inserted := e.inserted ++ [(e.anchor, insn)] }) := by
  unfold addLine at h
  by_cases isRegion : l.pattern.isTryCatch = true
  · rw [if_pos isRegion, EStateM.run_bind, run_build] at h
    cases ran : (cx.instantiateRegion l.pattern).run e.names with
    | error cause names =>
      rw [ran] at h
      cases h
    | ok region names =>
      rw [ran] at h
      cases h
      exact .inl ⟨isRegion, region, names, rfl, rfl⟩
  · rw [if_neg isRegion, EStateM.run_bind, run_build] at h
    cases ran : (cx.instantiate l.pattern).run e.names with
    | error cause names =>
      rw [ran] at h
      cases h
    | ok insn names =>
      rw [ran] at h
      cases h
      exact .inr ⟨by simpa using isRegion, insn, names, rfl, rfl⟩

/-- What adding a line does to a body. -/
theorem addLine_run (cx : BodyContext) (l : InsnLine) (e : BodyEdit) :
    match (cx.addLine l).run e with
    | .ok _ t => t.cursor = e.cursor ∧ e.names.scope.GrowsLabels t.names.scope
    | .error fault t => fault.isInconsistent = false ∧ e.names.scope.GrowsLabels t.names.scope := by
  have region := cx.instantiateRegion_buildsLabels l.pattern e.names.scope e.names (.refl _)
  have insn := cx.instantiate_buildsLabels l.pattern e.names.scope e.names (.refl _)
  unfold addLine
  by_cases isRegion : l.pattern.isTryCatch = true
  · rw [if_pos isRegion, EStateM.run_bind, run_build]
    cases h : (cx.instantiateRegion l.pattern).run e.names with
    | ok x names =>
      rw [h] at region
      exact ⟨rfl, region⟩
    | error cause names =>
      rw [h] at region
      exact ⟨rfl, region⟩
  · rw [if_neg isRegion, EStateM.run_bind, run_build]
    cases h : (cx.instantiate l.pattern).run e.names with
    | ok x names =>
      rw [h] at insn
      exact ⟨rfl, insn⟩
    | error cause names =>
      rw [h] at insn
      exact ⟨rfl, insn⟩

theorem addLine_growsLabels (cx : BodyContext) (l : InsnLine) (base : Scope) :
    Preserves (fun e : BodyEdit => base.GrowsLabels e.names.scope) (cx.addLine l) := by
  intro e grows
  have added := addLine_run cx l e
  cases h : (cx.addLine l).run e with
  | ok _ t =>
    rw [h] at added
    exact grows.trans added.2
  | error _ t =>
    rw [h] at added
    exact grows.trans added.2

/-- A line for a region goes wrong only if no region was found for it. -/
theorem regionLine_run (places : MethodMatch) (index : Nat) (l : InsnLine) (e : BodyEdit) :
    match (regionLine places index l).run e with
    | .ok _ t => t.cursor = e.cursor ∧ t.names = e.names ∧
        (places.regions.get? index).isSome = true
    | .error _ t => t.names = e.names ∧ places.regions.get? index = none := by
  unfold regionLine
  cases h : places.regions.get? index with
  | none => exact ⟨rfl, rfl⟩
  | some region =>
    dsimp only
    by_cases removed : l.mode = .remove
    · rw [if_pos removed]
      exact ⟨rfl, rfl, rfl⟩
    · rw [if_neg removed]
      exact ⟨rfl, rfl, rfl⟩

/-- A line has a place that is not before the cursor, and matches the instruction there. -/
def FoundAt (cx : BodyContext) (insns : List Insn) (places : MethodMatch) (index : Nat)
    (l : InsnLine) (e : BodyEdit) (place : Nat) : Prop :=
  ∃ insn, places.positions.get? index = some place ∧ e.cursor ≤ place ∧
    insns[place]? = some insn ∧ ((cx.matchInsn l.pattern insn).run e.names.scope).1 = true

/-- A line for an instruction goes wrong only if it is not where it was found. -/
theorem foundLine_run (cx : BodyContext) (insns : List Insn) (places : MethodMatch) (index : Nat)
    (l : InsnLine) (e : BodyEdit) :
    match (cx.foundLine insns places index l).run e with
    | .ok _ t => t.names = e.names ∧
        ∃ place, t.cursor = place + 1 ∧ FoundAt cx insns places index l e place
    | .error _ t => t.names = e.names ∧ ∀ place, ¬FoundAt cx insns places index l e place := by
  unfold foundLine
  cases h : places.positions.get? index with
  | none =>
    refine ⟨rfl, ?_⟩
    rintro place ⟨insn, recorded, -⟩
    rw [h] at recorded
    cases recorded
  | some place =>
    change match (if place < e.cursor then
        throw (.inconsistent l.line (.precedesCursor place e.cursor))
      else if cx.stillMatches insns l place e.names.scope then
        set { e with
          cursor := place + 1
          anchor := place + 1
          removed := if l.mode = Mode.remove then e.removed ++ [place] else e.removed }
      else throw (.inconsistent l.line (.noLongerMatches l.shown)) : EditM Unit).run e with
      | .ok _ t => t.names = e.names ∧
          ∃ place, t.cursor = place + 1 ∧ FoundAt cx insns places index l e place
      | .error _ t => t.names = e.names ∧ ∀ place, ¬FoundAt cx insns places index l e place
    by_cases before : place < e.cursor
    · rw [if_pos before]
      refine ⟨rfl, ?_⟩
      rintro p ⟨insn, recorded, later, -⟩
      obtain rfl := Option.some.inj (h.symm.trans recorded)
      exact absurd before (Nat.not_lt.2 later)
    · rw [if_neg before]
      by_cases still : cx.stillMatches insns l place e.names.scope = true
      · rw [if_pos still]
        refine ⟨rfl, place, rfl, ?_⟩
        unfold stillMatches at still
        cases here : insns[place]? with
        | none => simp [here] at still
        | some insn => exact ⟨insn, h, Nat.not_lt.1 before, here, by simpa [here] using still⟩
      · rw [if_neg still]
        refine ⟨rfl, ?_⟩
        rintro p ⟨insn, recorded, -, here, matched⟩
        obtain rfl := Option.some.inj (h.symm.trans recorded)
        exact still (by simpa [stillMatches, here] using matched)

/-- Carrying out one line of a block. -/
def editLine (cx : BodyContext) (insns : List Insn) (places : MethodMatch) (index : Nat)
    (l : InsnLine) (ls : List InsnLine) : EditM Unit :=
  if l.mode = .add then cx.addLine l
  else if l.pattern.isTryCatch then regionLine places index l
  else if l.pattern = .any then
    if nothingSought ls then modify fun e => { e with anchor := insns.length } else pure ()
  else cx.foundLine insns places index l

theorem editLines_cons (cx : BodyContext) (insns : List Insn) (places : MethodMatch) (index : Nat)
    (l : InsnLine) (ls : List InsnLine) :
    cx.editLines insns places index (l :: ls) = (do
      cx.editLine insns places index l ls
      cx.editLines insns places (index + 1) ls) := by
  rw [editLines]
  unfold editLine
  split
  · rfl
  split
  · rfl
  split
  · split <;> rfl
  · rfl

theorem anchorLine_run (insns : List Insn) (ls : List InsnLine) (e : BodyEdit) :
    ∃ anchor, (if nothingSought ls then modify fun e => { e with anchor := insns.length }
      else pure () : EditM Unit).run e = .ok () { e with anchor := anchor } := by
  split
  · exact ⟨_, rfl⟩
  · exact ⟨_, rfl⟩

theorem editLine_growsLabels (cx : BodyContext) (insns : List Insn) (places : MethodMatch)
    (index : Nat) (l : InsnLine) (ls : List InsnLine) (base : Scope) :
    Preserves (fun e : BodyEdit => base.GrowsLabels e.names.scope)
      (cx.editLine insns places index l ls) := by
  intro e grows
  have kept : ∀ t : BodyEdit, t.names = e.names → base.GrowsLabels t.names.scope :=
    fun t same => by rwa [same]
  unfold editLine
  by_cases adds : l.mode = .add
  · rw [if_pos adds]
    exact addLine_growsLabels cx l base e grows
  rw [if_neg adds]
  by_cases isRegion : l.pattern.isTryCatch = true
  · rw [if_pos isRegion]
    have := regionLine_run places index l e
    cases h : (regionLine places index l).run e with
    | ok _ t =>
      rw [h] at this
      exact kept _ this.2.1
    | error _ t =>
      rw [h] at this
      exact kept _ this.1
  rw [if_neg isRegion]
  by_cases free : l.pattern = .any
  · rw [if_pos free]
    obtain ⟨anchor, h⟩ := anchorLine_run insns ls e
    rw [h]
    exact grows
  · rw [if_neg free]
    have := foundLine_run cx insns places index l e
    cases h : (cx.foundLine insns places index l).run e with
    | ok _ t =>
      rw [h] at this
      exact kept _ this.1
    | error _ t =>
      rw [h] at this
      exact kept _ this.1

theorem editLines_growsLabels (cx : BodyContext) (insns : List Insn) (places : MethodMatch)
    (index : Nat) (ls : List InsnLine) (base : Scope) :
    Preserves (fun e : BodyEdit => base.GrowsLabels e.names.scope)
      (cx.editLines insns places index ls) := by
  induction ls generalizing index with
  | nil => exact .pure _ _
  | cons l ls ih =>
    rw [editLines_cons]
    exact (cx.editLine_growsLabels insns places index l ls base).bind fun _ => ih _

/-- A block whose lines have places in order where they match goes through, apart from what is
added. -/
theorem editLines_consistent {base : Scope} {index : Nat} {ls : List InsnLine} {e t : BodyEdit}
    {fault : EditFault} (grows : base.GrowsLabels e.names.scope)
    (placed : Placed (fun l insn => ∀ scope : Scope, base.GrowsLabels scope →
      ((cx.matchInsn l.pattern insn).run scope).1 = true) insns places e.cursor index ls)
    (h : (cx.editLines insns places index ls).run e = .error fault t) :
    fault.isInconsistent = false := by
  induction ls generalizing index e with
  | nil => cases h
  | cons l ls ih =>
    rw [editLines_cons, EStateM.run_bind] at h
    have next := cx.editLine_growsLabels insns places index l ls base e grows
    unfold editLine at h next
    rw [Placed] at placed
    split at placed
    · rw [if_pos ‹_›] at h next
      have added := addLine_run cx l e
      cases step : (cx.addLine l).run e with
      | ok _ u =>
        rw [step] at h next added
        exact ih next (by rw [added.1]; exact placed) h
      | error f u =>
        rw [step] at h added
        cases h
        exact added.1
    · rw [if_neg ‹_›] at h next
      split at placed
      · rw [if_pos ‹_›] at h next
        have found := regionLine_run places index l e
        cases step : (regionLine places index l).run e with
        | ok _ u =>
          rw [step] at h next found
          exact ih next (by rw [found.1]; exact placed.2) h
        | error f u =>
          rw [step] at found
          simp [found.2] at placed
      · rw [if_neg ‹_›] at h next
        split at placed
        · rw [if_pos ‹_›] at h next
          obtain ⟨anchor, step⟩ := anchorLine_run insns ls e
          rw [step] at h next
          exact ih next placed h
        · rw [if_neg ‹_›] at h next
          obtain ⟨place, insn, recorded, later, here, fits, rest⟩ := placed
          have found := foundLine_run cx insns places index l e
          have isThere : FoundAt cx insns places index l e place :=
            ⟨insn, recorded, later, here, fits _ grows⟩
          cases step : (cx.foundLine insns places index l).run e with
          | ok _ u =>
            rw [step] at h next found
            obtain ⟨-, p, cursor, _, recorded', -⟩ := found
            obtain rfl := Option.some.inj (recorded.symm.trans recorded')
            exact ih next (by rw [cursor]; exact rest) h
          | error f u =>
            rw [step] at found
            exact absurd isThere (found.2 place)

/-- If a block goes through, its lines have places in order where they match. -/
theorem placed_of_editLines {base : Scope} {index : Nat} {ls : List InsnLine} {e t : BodyEdit}
    (grows : base.GrowsLabels e.names.scope)
    (h : (cx.editLines insns places index ls).run e = .ok () t) :
    Placed (fun l insn => ∃ scope : Scope, base.GrowsLabels scope ∧
      ((cx.matchInsn l.pattern insn).run scope).1 = true) insns places e.cursor index ls := by
  induction ls generalizing index e with
  | nil => trivial
  | cons l ls ih =>
    rw [editLines_cons] at h
    obtain ⟨_, u, step, rest⟩ := run_bind_ok h
    have next := (cx.editLine_growsLabels insns places index l ls base).ok grows step
    have placed := ih next rest
    unfold editLine at step
    rw [Placed]
    split at step
    · rw [if_pos ‹_›]
      have added := addLine_run cx l e
      rw [step] at added
      rwa [added.1] at placed
    · rw [if_neg ‹_›]
      split at step
      · rw [if_pos ‹_›]
        have found := regionLine_run places index l e
        rw [step] at found
        exact ⟨found.2.2, by rwa [found.1] at placed⟩
      · rw [if_neg ‹_›]
        split at step
        · rw [if_pos ‹_›]
          obtain ⟨anchor, anchored⟩ := anchorLine_run insns ls e
          rw [anchored] at step
          cases step
          exact placed
        · rw [if_neg ‹_›]
          have found := foundLine_run cx insns places index l e
          rw [step] at found
          obtain ⟨-, place, cursor, insn, recorded, later, here, matched⟩ := found
          rw [cursor] at placed
          exact ⟨place, insn, recorded, later, here, ⟨_, grows, matched⟩, placed⟩

end BodyContext

end JvmPatch
