import JvmPatch.Proofs.Apply.Editing
import JvmPatch.Proofs.Bytecode.Labels
import JvmPatch.Proofs.Resolve.Labels

/-! The labels of a body while a block is carried out in it. Every label that a name stands for, or
that an added line uses, is below the first label that has not been given out. -/

set_option autoImplicit false

namespace JvmPatch

variable {base : MethodId → Label → Prop} {body : MethodId}

/-- The names of one body stand for labels that have been given out; of the others something else is
known. -/
def Labelling.Counts (base : MethodId → Label → Prop) (body : MethodId)
    (names : Labelling) : Prop :=
  names.scope.LabelsIn fun b l => if b = body then l.index < names.nextLabel else base b l

theorem Labelling.Counts.raise {names : Labelling} (counts : names.Counts base body) {next : Nat}
    (higher : names.nextLabel ≤ next) : Labelling.Counts base body ⟨names.scope, next⟩ := by
  intro e member
  have known := counts e member
  dsimp only at known ⊢
  split at known
  · rw [if_pos ‹_›]
    omega
  · rwa [if_neg ‹_›]

/-- A step that neither reads nor binds labels. -/
def Still {α : Type} (m : InstantiateM α) : Prop :=
  ∀ names, match m.run names with | .ok _ later | .error _ later => later = names

/-- A step that builds something out of given labels gives out all labels that the result has. -/
def BuildsBelow {α : Type} (base : MethodId → Label → Prop) (body : MethodId) (given : List Label)
    (labels : α → List Label) (m : InstantiateM α) : Prop :=
  ∀ names : Labelling, names.Counts base body → (∀ l ∈ given, l.index < names.nextLabel) →
    match m.run names with
    | .ok x later => later.Counts base body ∧ names.nextLabel ≤ later.nextLabel ∧
        ∀ l ∈ labels x, l.index < later.nextLabel
    | .error _ _ => True

namespace BuildsBelow

variable {α β : Type} {given : List Label} {labels : α → List Label} {labels' : β → List Label}

protected theorem pure {x : α} (known : ∀ l ∈ labels x, l ∈ given) :
    BuildsBelow base body given labels (pure x) :=
  fun _ counts below => ⟨counts, le_refl _, fun l inside => below l (known l inside)⟩

protected theorem throw (e : InstantiateError) :
    BuildsBelow base body given labels (throw e : InstantiateM α) := fun _ _ _ => trivial

theorem bind {m : InstantiateM α} {next : α → InstantiateM β}
    (first : BuildsBelow base body given labels m)
    (rest : ∀ x, BuildsBelow base body (given ++ labels x) labels' (next x)) :
    BuildsBelow base body given labels' (m >>= next) := by
  intro names counts below
  have one := first names counts below
  rw [EStateM.run_bind]
  cases ran : m.run names with
  | error e middle => trivial
  | ok x middle =>
    rw [ran] at one
    obtain ⟨counted, higher, built⟩ := one
    have two := rest x middle counted fun l inside => by
      rcases List.mem_append.1 inside with inside | inside
      · exact (below l inside).trans_le higher
      · exact built l inside
    dsimp only
    cases more : (next x).run middle with
    | error e later => trivial
    | ok y later =>
      rw [more] at two
      exact ⟨two.1, higher.trans two.2.1, two.2.2⟩

theorem get {next : Labelling → InstantiateM β}
    (rest : ∀ names : Labelling, names.Counts base body → (∀ l ∈ given, l.index < names.nextLabel) →
      match (next names).run names with
      | .ok x later => later.Counts base body ∧ names.nextLabel ≤ later.nextLabel ∧
          ∀ l ∈ labels' x, l.index < later.nextLabel
      | .error _ _ => True) : BuildsBelow base body given labels' (get >>= next) := rest

theorem quiet {m : InstantiateM α} {next : α → InstantiateM β} (still : Still m)
    (rest : ∀ x, BuildsBelow base body given labels' (next x)) :
    BuildsBelow base body given labels' (m >>= next) := by
  intro names counts below
  have one := still names
  rw [EStateM.run_bind]
  cases ran : m.run names with
  | error e middle => trivial
  | ok x middle =>
    rw [ran] at one
    subst one
    exact rest x _ counts below

theorem mapM {L : β → List Label} {f : α → InstantiateM β} {xs : List α}
    (each : ∀ x ∈ xs, ∀ given, BuildsBelow base body given L (f x)) :
    BuildsBelow base body given (fun ys => ys.flatMap L) (xs.mapM f) := by
  induction xs generalizing given with
  | nil => exact .pure fun l inside => nomatch inside
  | cons x xs ih =>
    rw [List.mapM_cons]
    refine (each x List.mem_cons_self given).bind fun y => ?_
    refine (ih fun x' member => each x' (.tail _ member)).bind fun ys => .pure fun l inside => ?_
    rw [List.flatMap_cons] at inside
    rcases List.mem_append.1 inside with inside | inside
    · exact List.mem_append_left _ (List.mem_append_right _ inside)
    · exact List.mem_append_right _ inside

end BuildsBelow

namespace BodyContext

variable {given : List Label}

theorem value_still {α : Type} (o : Operand α) : Still o.value := by
  intro names
  cases o <;> rfl

theorem mapped_still {α : Type} (f : Scope → Except UnboundName α) : Still (mapped f) := by
  intro names
  unfold mapped
  simp only [EStateM.run_bind, EStateM.run_get]
  cases f names.scope <;> rfl

theorem classOperandFor_still (cx : BodyContext) (type : TypeDesc) :
    Still (cx.classOperandFor type) := by
  intro names
  have one := mapped_still (fun scope => scope.mapType cx.classes type) names
  unfold classOperandFor
  rw [EStateM.run_bind]
  cases ran : (mapped fun scope => scope.mapType cx.classes type).run names with
  | ok x later =>
    rw [ran] at one
    exact one
  | error e later =>
    rw [ran] at one
    exact one

theorem get_still : Still (get : InstantiateM Labelling) := fun _ => rfl

theorem labelFor_below (cx : BodyContext) (isBody : cx.body = body) (l : LabelRef) :
    BuildsBelow base body given (fun l => [l]) (cx.labelFor l) := by
  cases l with
  | any => exact .throw _
  | weak name =>
    refine .get fun names counts below => ?_
    cases known : names.scope.label? cx.body name with
    | some bound =>
      refine ⟨counts, le_refl _, List.forall_mem_singleton.2 ?_⟩
      simpa [isBody] using Scope.LabelsIn.of_label? counts known
    | none =>
      cases free : names.scope.bindLabel? cx.body name ⟨names.nextLabel⟩ with
      | none =>
        simp only [free]
        trivial
      | some scope =>
        simp only [free]
        refine ⟨?_, Nat.le_succ _, List.forall_mem_singleton.2 (Nat.lt_succ_self _)⟩
        have raised := counts.raise (Nat.le_succ names.nextLabel)
        refine Scope.LabelsIn.bindLabel? raised ?_ free
        rw [if_pos isBody]
        exact Nat.lt_succ_self _

/-- The labels of an instruction that is built have been given out. -/
theorem instantiate_below (cx : BodyContext) (isBody : cx.body = body) (pattern : Pattern) :
    BuildsBelow base body given Insn.labels (cx.instantiate pattern) := by
  have label : ∀ {given} l, BuildsBelow base body given (fun l => [l]) (cx.labelFor l) :=
    fun l => cx.labelFor_below isBody l
  have done : ∀ {given : List Label} {insn : Insn}, insn.labels = [] →
      BuildsBelow base body given Insn.labels (pure insn) :=
    fun none => .pure (by simp [none])
  unfold instantiate
  split
  case h_1 | h_2 => exact .throw _
  case h_3 =>
    exact (label _).bind fun l => .pure (by simp [Insn.labels, Insn.placed?, Insn.branchTargets])
  case h_4 | h_5 => exact done rfl
  case h_6 | h_7 | h_8 | h_9 | h_10 | h_12 => exact .quiet (value_still _) fun _ => done rfl
  case h_11 | h_19 =>
    exact .quiet (value_still _) fun _ => .quiet (cx.classOperandFor_still _) fun _ => done rfl
  case h_13 => exact .quiet (value_still _) fun _ => .quiet (value_still _) fun _ => done rfl
  case h_14 =>
    exact (label _).bind fun l => .pure (by simp [Insn.labels, Insn.placed?, Insn.branchTargets])
  case h_15 =>
    refine .quiet (value_still _) fun _ => .quiet (value_still _) fun _ => (label _).bind fun d =>
      (BuildsBelow.mapM fun l _ _ => label l).bind fun targets => .pure fun l inside => ?_
    have branched : l = d ∨ l ∈ targets := by
      simpa [Insn.labels, Insn.placed?, Insn.branchTargets] using inside
    rcases branched with rfl | inside
    · simp
    · simp [inside]
  case h_16 =>
    refine (label _).bind fun d => (BuildsBelow.mapM (L := fun p => [p.2]) fun c _ _ => ?_).bind
      fun pairs => .pure fun l inside => ?_
    · exact .quiet (value_still _) fun key => (label _).bind fun l => .pure (by simp)
    · have branched : l = d ∨ l ∈ pairs.map Prod.snd := by
        simpa [Insn.labels, Insn.placed?, Insn.branchTargets] using inside
      rcases branched with rfl | inside
      · simp
      · refine List.mem_append_right _ (List.mem_flatMap.2 ?_)
        obtain ⟨p, member, rfl⟩ := List.mem_map.1 inside
        exact ⟨p, member, List.mem_cons_self⟩
  case h_17 | h_18 =>
    exact .quiet (mapped_still _) fun _ => .quiet get_still fun _ =>
      .quiet (mapped_still _) fun _ => done rfl
  case h_20 =>
    refine .quiet (value_still _) fun _ => ?_
    split
    · exact done rfl
    · exact .quiet (cx.classOperandFor_still _) fun _ => done rfl
  case h_21 =>
    refine .quiet (value_still _) fun _ => .quiet (mapped_still _) fun _ => ?_
    split
    · exact .quiet (value_still _) fun _ => done rfl
    · exact .throw _

/-- The labels of a region that is built have been given out. -/
theorem instantiateRegion_below (cx : BodyContext) (isBody : cx.body = body) (pattern : Pattern) :
    BuildsBelow base body given Region.labels (cx.instantiateRegion pattern) := by
  have label : ∀ {given} l, BuildsBelow base body given (fun l => [l]) (cx.labelFor l) :=
    fun l => cx.labelFor_below isBody l
  unfold instantiateRegion
  split
  · rename_i start stop handler catchType
    have rest : ∀ catchType : Option String, BuildsBelow base body given Region.labels (do
        let start ← cx.labelFor start
        let stop ← cx.labelFor stop
        let handler ← cx.labelFor handler
        pure (⟨start, stop, handler, catchType⟩ : Region)) :=
      fun _ => (label _).bind fun _ => (label _).bind fun _ => (label _).bind fun _ =>
        .pure (by simp [Region.labels])
    dsimp only
    split
    · exact .quiet (cx.classOperandFor_still _) fun _ => rest _
    · exact rest _
  · exact .throw _

end BodyContext

/-- All labels that a change of a body brings in have been given out, and no label has been taken
back. -/
structure BodyEdit.Counts (base : MethodId → Label → Prop) (body : MethodId) (start : Nat)
    (e : BodyEdit) : Prop where
  names : e.names.Counts base body
  start : start ≤ e.names.nextLabel
  inserted : ∀ i ∈ e.inserted, ∀ l ∈ i.2.labels, l.index < e.names.nextLabel
  regions : ∀ r ∈ e.addedRegions, ∀ l ∈ r.labels, l.index < e.names.nextLabel

namespace BodyContext

variable {start : Nat} {cx : BodyContext}

theorem addLine_counts (isBody : cx.body = body) (l : InsnLine) :
    KeepsIfOk (BodyEdit.Counts base body start) (cx.addLine l) := by
  intro e _ t h counts
  rcases addLine_ok h with ⟨-, region, names, ran, rfl⟩ | ⟨-, insn, names, ran, rfl⟩
  · have built := cx.instantiateRegion_below isBody l.pattern e.names counts.names
      (List.forall_mem_nil _)
    rw [ran] at built
    obtain ⟨named, higher, below⟩ := built
    refine ⟨named, counts.start.trans higher, fun i member l inside => ?_,
      fun r member l inside => ?_⟩
    · exact (counts.inserted i member l inside).trans_le higher
    · rcases List.mem_append.1 member with member | member
      · exact (counts.regions r member l inside).trans_le higher
      · obtain rfl := List.mem_singleton.1 member
        exact below l inside
  · have built := cx.instantiate_below isBody l.pattern e.names counts.names
      (List.forall_mem_nil _)
    rw [ran] at built
    obtain ⟨named, higher, below⟩ := built
    refine ⟨named, counts.start.trans higher, fun i member l inside => ?_,
      fun r member l inside => ?_⟩
    · rcases List.mem_append.1 member with member | member
      · exact (counts.inserted i member l inside).trans_le higher
      · obtain rfl := List.mem_singleton.1 member
        exact below l inside
    · exact (counts.regions r member l inside).trans_le higher

end BodyContext

/-- A change of a body brings in the same as another one. -/
def BodyEdit.SameGain (e t : BodyEdit) : Prop :=
  t.names = e.names ∧ t.inserted = e.inserted ∧ t.addedRegions = e.addedRegions

namespace BodyContext

variable {cx : BodyContext} {insns : List Insn} {places : MethodMatch}

theorem regionLine_sameGain {index : Nat} {l : InsnLine} {e t : BodyEdit}
    (h : (regionLine places index l).run e = .ok () t) : e.SameGain t := by
  unfold regionLine at h
  split at h
  · cases h
  · split at h
    · cases h
      exact ⟨rfl, rfl, rfl⟩
    · cases h
      exact ⟨rfl, rfl, rfl⟩

theorem foundLine_sameGain {index : Nat} {l : InsnLine} {e t : BodyEdit}
    (h : (cx.foundLine insns places index l).run e = .ok () t) : e.SameGain t := by
  unfold foundLine at h
  split at h
  · cases h
  · obtain ⟨start, s, got, h⟩ := run_bind_ok h
    cases got
    split at h
    · cases h
    split at h
    · cases h
      exact ⟨rfl, rfl, rfl⟩
    · cases h

/-- Only added lines bring something in. -/
theorem editLine_gains {index : Nat} {l : InsnLine} {ls : List InsnLine} {e t : BodyEdit}
    (h : (cx.editLine insns places index l ls).run e = .ok () t) :
    l.mode = .add ∧ (cx.addLine l).run e = .ok () t ∨ e.SameGain t := by
  unfold editLine at h
  split at h
  · exact .inl ⟨‹_›, h⟩
  split at h
  · exact .inr (regionLine_sameGain h)
  split at h
  · obtain ⟨anchor, ran⟩ := anchorLine_run insns ls e
    rw [ran] at h
    cases h
    exact .inr ⟨rfl, rfl, rfl⟩
  · exact .inr (foundLine_sameGain h)

/-- What holds of what a block brings in holds at its end if every added line keeps it. -/
theorem editLines_keepsIfOk {P : BodyEdit → Prop}
    (same : ∀ e t : BodyEdit, e.SameGain t → P e → P t) {lines : List InsnLine}
    (adds : ∀ l ∈ lines, l.mode = .add → KeepsIfOk P (cx.addLine l)) (index : Nat) :
    KeepsIfOk P (cx.editLines insns places index lines) := by
  induction lines generalizing index with
  | nil => exact .pure _ _
  | cons l ls ih =>
    rw [editLines_cons]
    refine Moves.bind (fun e x t h holds => ?_) fun _ =>
      ih (fun l' member => adds l' (.tail _ member)) _
    rcases editLine_gains h with ⟨mode, ran⟩ | gain
    · exact adds l List.mem_cons_self mode e () t ran holds
    · exact same e t gain holds

theorem editLines_counts {start : Nat} (isBody : cx.body = body) (index : Nat)
    (lines : List InsnLine) :
    KeepsIfOk (BodyEdit.Counts base body start) (cx.editLines insns places index lines) := by
  refine editLines_keepsIfOk ?_ (fun l _ _ => addLine_counts isBody l) index
  rintro e t ⟨names, inserted, regions⟩ counts
  exact ⟨names ▸ counts.names, names ▸ counts.start, by rw [names, inserted]; exact counts.inserted,
    by rw [names, regions]; exact counts.regions⟩

end BodyContext

namespace BodyEdit

/-- The instructions of a changed body are old ones and those that have been brought in. -/
theorem mem_weave {e : BodyEdit} {insn : Insn} {insns : List Insn} {place : Nat}
    (member : insn ∈ e.weave place insns) : insn ∈ insns ∨ ∃ i ∈ e.inserted, i.2 = insn := by
  have inserted : ∀ place, insn ∈ e.insertedAt place → ∃ i ∈ e.inserted, i.2 = insn := by
    intro place member
    obtain ⟨i, inside, rfl⟩ := List.mem_map.1 member
    exact ⟨i, List.mem_of_mem_filter inside, rfl⟩
  induction insns generalizing place with
  | nil => exact .inr (inserted place member)
  | cons old insns ih =>
    rw [weave] at member
    rcases List.mem_append.1 member with member | member
    · exact .inr (inserted place member)
    · rcases List.mem_append.1 member with member | member
      · split at member
        · cases member
        · obtain rfl := List.mem_singleton.1 member
          exact .inl List.mem_cons_self
      · exact (ih member).imp (.tail _) id

/-- The labels of a changed body have been given out. -/
theorem Counts.below {start : Nat} {e : BodyEdit} {code : Code}
    (counts : BodyEdit.Counts base body start e) (below : code.Below)
    (isStart : code.nextLabel = start) :
    (e.apply code).Below := by
  intro l places
  obtain ⟨insn, member, isLabel⟩ := List.mem_filterMap.1 places
  change l.index < e.names.nextLabel
  rcases mem_weave member with old | ⟨i, inside, rfl⟩
  · have := below l (List.mem_filterMap.2 ⟨insn, old, isLabel⟩)
    have := counts.start
    omega
  · refine counts.inserted i inside l (List.mem_append_left _ ?_)
    exact Option.mem_toList.2 isLabel

end BodyEdit

end JvmPatch
