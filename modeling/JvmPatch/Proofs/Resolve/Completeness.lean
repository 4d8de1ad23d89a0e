import JvmPatch.Proofs.ClassSet.Growth
import JvmPatch.Proofs.Resolve.Selections
import JvmPatch.Proofs.Steps

/-! The search for an assignment finds the first one that is accepted, among all assignments that
give every class block some class and every line some member of it. Leaving out the candidates that
have another name than a strong name neither loses an accepted assignment nor changes the order. -/

set_option autoImplicit false

namespace JvmPatch

/-- What can be assigned to a line: nothing if what it describes is added or the class of its block
is, and some candidate otherwise. -/
def Fills {α : Type} (mode : Mode) (candidates : Option (List α)) (assigned : Option α) : Prop :=
  match mode, candidates with
  | .add, _ | _, none => assigned = none
  | _, some xs => ∃ x ∈ xs, assigned = some x

/-- The place of what is assigned among the candidates. -/
def digit {α : Type} [BEq α] (candidates : Option (List α)) (assigned : Option α) : Nat :=
  match candidates, assigned with
  | some xs, some x => xs.idxOf x
  | _, _ => 0

namespace ClassSet

theorem mem_candidates (set : ClassSet) (id : ClassId) :
    id ∈ set.candidates ↔
      id.index < set.classes.size ∧ (set.classAt id).hidden = false ∧
        (set.classAt id).removed = false := by
  simp only [candidates, List.mem_mergeSort, List.mem_filter, classIds, List.mem_map,
    List.mem_range, isCandidate, Bool.and_eq_true, Bool.not_eq_true']
  constructor
  · rintro ⟨⟨index, known, rfl⟩, visible⟩
    exact ⟨known, visible⟩
  · rintro ⟨known, visible⟩
    exact ⟨⟨id.index, known, rfl⟩, visible⟩

/-- A class that scripts can match is chosen for a block, and for every line a member of the class.
Strong names do not narrow the choice. -/
structure FullChoice (set : ClassSet) (block : ClassBlock) (choice : ClassChoice) : Prop where
  cls : Fills block.mode (some set.candidates) choice.cls
  fields : List.Forall₂ (fun line => Fills line.mode (choice.cls.map set.fieldCandidates))
    block.fields choice.fields
  methods : List.Forall₂ (fun block => Fills block.mode (choice.cls.map set.methodCandidates))
    block.methods choice.methods

/-- Classes and members are chosen for all blocks of a script. -/
def FullAssignment (set : ClassSet) (script : Script) (a : Assignment) : Prop :=
  List.Forall₂ set.FullChoice script.classes a

/-- The weak names of a script can be bound to what is assigned, and all checks succeed then. -/
def Accepts (set : ClassSet) (script : Script) (initial : Scope) (a : Assignment)
    (final : Scope) : Prop :=
  ∃ claimed bound, (set.claimAll script a).run initial = .ok claimed bound ∧
    (set.verify script a).run bound = .ok () final

/-- The places of what is chosen for a class block among all candidates. -/
def choiceDigits (set : ClassSet) (choice : ClassChoice) : List Nat :=
  [digit (some set.candidates) choice.cls] ++
    (choice.fields.map (digit (choice.cls.map set.fieldCandidates)) ++
      choice.methods.map (digit (choice.cls.map set.methodCandidates)))

/-- The places of what is assigned, from left to right. -/
def digits (set : ClassSet) (a : Assignment) : List Nat := a.flatMap set.choiceDigits

end ClassSet

/-- All that can be assigned to a line, in order. -/
def fillings {α : Type} (mode : Mode) (candidates : Option (List α)) : List (Option α) :=
  match mode, candidates with
  | .add, _ | _, none => [none]
  | _, some xs => xs.map some

theorem mem_fillings {α : Type} (mode : Mode) (candidates : Option (List α))
    (assigned : Option α) :
    assigned ∈ fillings mode candidates ↔ Fills mode candidates assigned := by
  cases mode <;> cases candidates <;> simp [fillings, Fills, eq_comm]

theorem fillings_ordered {α : Type} [BEq α] [LawfulBEq α] (mode : Mode)
    (candidates : Option (List α)) :
    OrderedBy (fun x => [digit candidates x]) (fillings mode candidates) := by
  cases candidates with
  | none => cases mode <;> exact .singleton _ _
  | some xs =>
    have kept : OrderedBy (fun x => [digit (some xs) x]) (xs.map some) :=
      (orderedBy_idxOf xs).map some fun _ _ => rfl
    cases mode with
    | keep => exact kept
    | add => exact .singleton _ _
    | remove => exact kept

theorem length_of_mem_selections {α β : Type} {lines : List β} {f : β → List α} {l : List α}
    (member : l ∈ selections (lines.map f)) : l.length = lines.length := by
  rw [mem_selections] at member
  simpa using member.length_eq

theorem selections_fillings_ordered {α β : Type} [BEq α] [LawfulBEq α] (lines : List β)
    (mode : β → Mode) (candidates : Option (List α)) :
    OrderedBy (·.map (digit candidates))
      (selections (lines.map fun line => fillings (mode line) candidates)) := by
  have ordered : OrderedBy (fun l => l.flatMap fun x => [digit candidates x])
      (selections (lines.map fun line => fillings (mode line) candidates)) :=
    OrderedBy.selections (List.forall_mem_map.2 fun _ _ => fillings_ordered _ _)
      (List.forall_mem_map.2 fun _ _ _ _ _ _ => rfl)
  simpa only [← List.map_eq_flatMap] using ordered

/-- The choices for a class block that result from lists of classes, and for each class lists of
fields and methods. -/
def choicesFrom (classes : List (Option ClassId))
    (fields : Option ClassId → List (List (Option FieldId)))
    (methods : Option ClassId → List (List (Option MethodId))) : List ClassChoice :=
  classes.flatMap fun cls =>
    ((selections (fields cls)).flatMap fun fs => (selections (methods cls)).map (Prod.mk fs)).map
      fun members => ⟨cls, members.1, members.2⟩

theorem mem_choicesFrom (classes : List (Option ClassId))
    (fields : Option ClassId → List (List (Option FieldId)))
    (methods : Option ClassId → List (List (Option MethodId))) (choice : ClassChoice) :
    choice ∈ choicesFrom classes fields methods ↔
      choice.cls ∈ classes ∧ choice.fields ∈ selections (fields choice.cls) ∧
        choice.methods ∈ selections (methods choice.cls) := by
  simp only [choicesFrom, List.mem_flatMap, List.mem_map]
  constructor
  · rintro ⟨cls, hc, -, ⟨fs, hf, ms, hm, rfl⟩, rfl⟩
    exact ⟨hc, hf, hm⟩
  · rintro ⟨hc, hf, hm⟩
    exact ⟨choice.cls, hc, (choice.fields, choice.methods),
      ⟨choice.fields, hf, choice.methods, hm, rfl⟩, rfl⟩

namespace ClassSet

/-- The choices for a class block that the search looks at. -/
def choices (set : ClassSet) (block : ClassBlock) : List ClassChoice :=
  choicesFrom (set.classOptions block) (fun cls => block.fields.map (set.fieldOptions cls))
    fun cls => block.methods.map (set.methodOptions cls)

def fullChoices (set : ClassSet) (block : ClassBlock) : List ClassChoice :=
  choicesFrom (fillings block.mode (some set.candidates))
    (fun cls => block.fields.map fun line => fillings line.mode (cls.map set.fieldCandidates))
    fun cls => block.methods.map fun b => fillings b.mode (cls.map set.methodCandidates)

theorem forChoices_eq_foldl {σ : Type} (set : ClassSet) {done : σ → Bool} (block : ClassBlock)
    {visit : ClassChoice → σ → σ} (idle : Idle done visit) (s : σ) :
    set.forChoices done block visit s =
      (set.choices block).foldl (fun s choice => visit choice s) s := by
  have idleMethods : ∀ (cls : Option ClassId) (fields : List (Option FieldId)),
      Idle done fun methods => visit ⟨cls, fields, methods⟩ :=
    fun cls fields methods s h => idle ⟨cls, fields, methods⟩ s h
  have idleFields : ∀ cls : Option ClassId, Idle done fun fields =>
      forProduct done (fun methods => visit ⟨cls, fields, methods⟩)
        (block.methods.map (set.methodOptions cls)) [] :=
    fun cls fields => (idleMethods cls fields).forProduct _ []
  have idleClass : Idle done fun cls => forProduct done (fun fields =>
      forProduct done (fun methods => visit ⟨cls, fields, methods⟩)
        (block.methods.map (set.methodOptions cls)) [])
      (block.fields.map (set.fieldOptions cls)) [] :=
    fun cls => (idleFields cls).forProduct _ []
  rw [forChoices, foldl_until_done idleClass]
  simp only [choices, choicesFrom, List.foldl_flatMap, List.foldl_map]
  congr 1
  funext s cls
  rw [forProduct_eq_foldl (idleFields cls)]
  congr 1
  funext s fields
  rw [forProduct_eq_foldl (idleMethods cls _)]
  simp only [List.nil_append]

theorem forAssignments_eq_foldl {σ : Type} (set : ClassSet) {done : σ → Bool}
    {visit : Assignment → σ → σ} (idle : Idle done visit) (blocks : List ClassBlock)
    (chosen : Assignment) (s : σ) :
    set.forAssignments done visit blocks chosen s =
      (selections (blocks.map set.choices)).foldl (fun s a => visit (chosen ++ a) s) s := by
  induction blocks generalizing chosen s with
  | nil => simp [forAssignments, selections]
  | cons block blocks ih =>
    have idleRest : Idle done fun choice =>
        set.forAssignments done visit blocks (chosen ++ [choice]) := by
      intro choice s h
      simp only [ih]
      exact foldl_of_done (fun a s h => idle (chosen ++ [choice] ++ a) s h) _ s h
    rw [forAssignments, set.forChoices_eq_foldl block idleRest]
    simp only [List.map_cons, selections, List.foldl_flatMap, List.foldl_map, ih,
      List.append_assoc, List.singleton_append]

theorem mem_fullChoices (set : ClassSet) (block : ClassBlock) (choice : ClassChoice) :
    choice ∈ set.fullChoices block ↔ set.FullChoice block choice := by
  simp only [fullChoices, mem_choicesFrom, mem_selections, mem_fillings]
  rw [List.forall₂_map_right_iff, List.forall₂_map_right_iff]
  simp only [mem_fillings]
  constructor
  · rintro ⟨hc, hf, hm⟩
    exact ⟨hc, hf.flip, hm.flip⟩
  · rintro ⟨hc, hf, hm⟩
    exact ⟨hc, hf.flip, hm.flip⟩

theorem mem_selections_fullChoices (set : ClassSet) (script : Script) (a : Assignment) :
    a ∈ selections (script.classes.map set.fullChoices) ↔ set.FullAssignment script a := by
  rw [mem_selections, List.forall₂_map_right_iff]
  simp only [mem_fullChoices]
  exact ⟨fun h => h.flip, fun h => h.flip⟩

theorem fullChoices_ordered (set : ClassSet) (block : ClassBlock) :
    OrderedBy set.choiceDigits (set.fullChoices block) := by
  refine (fillings_ordered block.mode (some set.candidates)).flatMap (fun _ _ _ _ => rfl)
    (fun cls _ => ?_) fun _ _ _ _ => rfl
  refine (selections_fillings_ordered block.fields FieldLine.mode
    (cls.map set.fieldCandidates)).flatMap ?_
    (fun _ _ => selections_fillings_ordered block.methods MethodBlock.mode
      (cls.map set.methodCandidates)) fun _ _ _ _ => rfl
  intro a ha b hb
  rw [List.length_map, List.length_map, length_of_mem_selections ha, length_of_mem_selections hb]

theorem fullChoices_sameWidth (set : ClassSet) (block : ClassBlock) :
    SameWidth set.choiceDigits (set.fullChoices block) := by
  intro a ha b hb
  rw [mem_fullChoices] at ha hb
  simp only [choiceDigits, List.length_append, List.length_map, ← ha.fields.length_eq,
    ← hb.fields.length_eq, ← ha.methods.length_eq, ← hb.methods.length_eq]
  rfl

/-- The full assignments are enumerated in the lexicographic order of their digits. -/
theorem fullAssignments_ordered (set : ClassSet) (script : Script) :
    OrderedBy set.digits (selections (script.classes.map set.fullChoices)) :=
  OrderedBy.selections (List.forall_mem_map.2 fun block _ => set.fullChoices_ordered block)
    (List.forall_mem_map.2 fun block _ => set.fullChoices_sameWidth block)

end ClassSet

/-- A name of a script admits a name. -/
def Ident.Admits (ident : Ident) (name : String) : Prop :=
  ident.isStrong = true → name = ident.name

/-- Unless a line is for something that is added, something is assigned to it that has an admitted
name. -/
def Named {α : Type} (mode : Mode) (ident : Ident) (name : α → String) (assigned : Option α) :
    Prop :=
  mode ≠ .add → ∃ x, assigned = some x ∧ ident.Admits (name x)

theorem sameFirst_options {α : Type} (mode : Mode) (kept : mode ≠ .add) (ident : Ident)
    (name : α → String) (xs : List α) :
    SameFirst (Named mode ident name) (options (ident.narrow name xs))
      (fillings mode (some xs)) := by
  intro p necessary
  have full : fillings mode (some xs) = xs.map some := by
    cases mode with
    | add => exact absurd rfl kept
    | keep => rfl
    | remove => rfl
  have unassigned : p none = false := by
    rw [Bool.eq_false_iff]
    intro holds
    obtain ⟨x, h, -⟩ := necessary none holds kept
    simp at h
  have opened : ∀ ys : List α, (options ys).find? p = (ys.map some).find? p := by
    intro ys
    cases ys with
    | nil => simp [options, unassigned]
    | cons y ys => rfl
  rw [full, opened, Ident.narrow]
  split
  · rename_i strong
    rw [List.find?_map, List.find?_map, List.find?_filter]
    congr 2
    funext x
    cases holds : p (some x) with
    | false => simp [holds]
    | true =>
      obtain ⟨y, h, admitted⟩ := necessary _ holds kept
      obtain rfl := Option.some.inj h
      simp [holds, admitted strong]
  · rfl

namespace ClassSet

/-- What is assigned to a class block and to its members has admitted names. -/
def NamedChoice (set : ClassSet) (block : ClassBlock) (choice : ClassChoice) : Prop :=
  block.mode ≠ .add →
    Named block.mode block.ident (fun id => (set.classAt id).name) choice.cls ∧
      (∀ e ∈ block.fields.zip choice.fields,
        Named e.1.mode e.1.ident (fun f => (set.fieldAt f).name) e.2) ∧
      ∀ e ∈ block.methods.zip choice.methods,
        Named e.1.mode e.1.ident (fun m => (set.methodAt m).name) e.2

theorem sameFirst_fieldOptions (set : ClassSet) (cls : Option ClassId) (assigned : cls ≠ none)
    (line : FieldLine) :
    SameFirst (Named line.mode line.ident fun f => (set.fieldAt f).name)
      (set.fieldOptions cls line) (fillings line.mode (cls.map set.fieldCandidates)) := by
  cases cls with
  | none => exact absurd rfl assigned
  | some id =>
    cases h : line.mode with
    | add => simpa [fieldOptions, fillings, h] using .refl _ _
    | keep =>
      simpa only [fieldOptions, h, Option.map_some] using sameFirst_options .keep (by simp) _ _ _
    | remove =>
      simpa only [fieldOptions, h, Option.map_some] using sameFirst_options .remove (by simp) _ _ _

theorem sameFirst_methodOptions (set : ClassSet) (cls : Option ClassId) (assigned : cls ≠ none)
    (block : MethodBlock) :
    SameFirst (Named block.mode block.ident fun m => (set.methodAt m).name)
      (set.methodOptions cls block) (fillings block.mode (cls.map set.methodCandidates)) := by
  cases cls with
  | none => exact absurd rfl assigned
  | some id =>
    cases h : block.mode with
    | add => simpa [methodOptions, fillings, h] using .refl _ _
    | keep =>
      simpa only [methodOptions, h, Option.map_some] using sameFirst_options .keep (by simp) _ _ _
    | remove =>
      simpa only [methodOptions, h, Option.map_some] using sameFirst_options .remove (by simp) _ _ _

theorem choices_of_added (set : ClassSet) (block : ClassBlock) (added : block.mode = .add) :
    set.choices block = set.fullChoices block := by
  have noField : set.fieldOptions none = fun line => fillings line.mode none := by
    funext line
    cases h : line.mode <;> simp only [fieldOptions, h] <;> rfl
  have noMethod : set.methodOptions none = fun b => fillings b.mode none := by
    funext b
    cases h : b.mode <;> simp only [methodOptions, h] <;> rfl
  have noClass : fillings .add (some set.candidates) = [none] := rfl
  simp only [choices, fullChoices, choicesFrom, classOptions, added, if_true, noClass,
    List.flatMap_singleton, noField, noMethod, Option.map_none]

theorem sameFirst_choices (set : ClassSet) (block : ClassBlock) :
    SameFirst (set.NamedChoice block) (set.choices block) (set.fullChoices block) := by
  by_cases added : block.mode = .add
  · rw [set.choices_of_added block added]
    exact .refl _ _
  · have classes : SameFirst
        (Named block.mode block.ident fun id => (set.classAt id).name)
        (set.classOptions block) (fillings block.mode (some set.candidates)) := by
      simpa only [classOptions, if_neg added] using sameFirst_options block.mode added _ _ _
    refine classes.flatMap (fun cls named => ?_) fun cls members h => h added |>.imp_right id
    obtain ⟨id, rfl, -⟩ := named added
    refine (SameFirst.selections block.fields fun line _ =>
      set.sameFirst_fieldOptions (some id) (by simp) line).flatMap
      (fun fs _ => SameFirst.selections block.methods fun b _ =>
        set.sameFirst_methodOptions (some id) (by simp) b) ?_
    intro fs ms h
    exact h

theorem admits_of_checkName {ident : Ident} {name : String} {s s' : Scope}
    (h : (checkName ident name).run s = .ok () s') : ident.Admits name := by
  intro strong
  simp only [checkName, CheckM.require, strong, Bool.not_true, Bool.false_or] at h
  split at h
  · exact (beq_iff_eq.1 ‹_›).symm
  · simp at h

theorem admits_of_checkClass {set : ClassSet} {block : ClassBlock} {id : ClassId} {s s' : Scope}
    (h : (set.checkClass block id).run s = .ok () s') :
    block.ident.Admits (set.classAt id).name := by
  obtain ⟨_, _, named, -⟩ := run_bind_ok h
  exact admits_of_checkName named

theorem admits_of_checkField {set : ClassSet} {line : FieldLine} {id : FieldId} {s s' : Scope}
    (h : (set.checkField line id).run s = .ok () s') :
    line.ident.Admits (set.fieldAt id).name := by
  obtain ⟨_, _, named, -⟩ := run_bind_ok h
  exact admits_of_checkName named

theorem admits_of_checkMethod {set : ClassSet} {block : MethodBlock} {owner : ClassId}
    {id : MethodId} {s s' : Scope} (h : (set.checkMethod block owner id).run s = .ok () s') :
    block.ident.Admits (set.methodAt id).name := by
  obtain ⟨_, _, head, -⟩ := run_bind_ok h
  obtain ⟨_, _, named, -⟩ := run_bind_ok head
  exact admits_of_checkName named

theorem run_pass_ok {progress n : Nat} {element : String} {check : CheckM Unit} {s s' : Scope}
    (h : (VerifyM.pass progress element check).run s = .ok n s') :
    n = progress + 1 ∧ check.run s = .ok () s' := by
  obtain ⟨t, s₁, start, rest⟩ := run_bind_ok h
  rw [EStateM.run_get] at start
  cases start
  cases checked : check.run s with
  | ok _ t =>
    simp only [checked] at rest
    cases rest
    exact ⟨rfl, rfl⟩
  | error reason t =>
    simp only [checked] at rest
    cases rest

theorem named_of_verifyElement {α : Type} {mode : Mode} {element : String} {kind : ElementKind}
    {check : α → CheckM Unit} {assigned : Option α} {progress n : Nat} {s s' : Scope}
    {ident : Ident} {name : α → String}
    (admits : ∀ x t t', (check x).run t = .ok () t' → ident.Admits (name x))
    (h : (verifyElement mode element kind check assigned progress).run s = .ok n s') :
    Named mode ident name assigned := by
  intro kept
  simp only [verifyElement, if_neg kept] at h
  cases assigned with
  | none => simp at h
  | some x => exact ⟨x, rfl, admits x _ _ (run_pass_ok h).2⟩

theorem namedChoice_of_verifyClass {set : ClassSet} {block : ClassBlock} {choice : ClassChoice}
    {progress n : Nat} {s s' : Scope}
    (h : (set.verifyClass block choice progress).run s = .ok n s') :
    set.NamedChoice block choice := by
  intro kept
  rw [verifyClass, if_neg kept] at h
  cases chosen : choice.cls with
  | none => simp [chosen] at h
  | some id =>
    rw [chosen] at h
    obtain ⟨_, _, first, h⟩ := run_bind_ok h
    obtain ⟨_, _, fields, methods⟩ := run_bind_ok h
    refine ⟨fun _ => ⟨id, rfl, admits_of_checkClass (run_pass_ok first).2⟩, fun e member => ?_,
      fun e member => ?_⟩
    · obtain ⟨_, _, _, _, step⟩ := run_foldlM_ok_of_mem fields member
      exact named_of_verifyElement (fun _ _ _ => admits_of_checkField) step
    · obtain ⟨_, _, _, _, step⟩ := run_foldlM_ok_of_mem methods member
      exact named_of_verifyElement (fun _ _ _ => admits_of_checkMethod) step

theorem namedChoice_of_verify {set : ClassSet} {script : Script} {a : Assignment} {s s' : Scope}
    (h : (set.verify script a).run s = .ok () s') :
    ∀ e ∈ script.classes.zip a, set.NamedChoice e.1 e.2 := by
  intro e member
  obtain ⟨_, _, steps, -⟩ := run_bind_ok h
  obtain ⟨_, _, _, _, step⟩ := run_foldlM_ok_of_mem steps member
  exact namedChoice_of_verifyClass step

theorem attempt_ok_iff (set : ClassSet) (script : Script) (initial : Scope) (a : Assignment)
    (r : Resolution) :
    set.attempt script initial (set.verify script) a = .ok r ↔
      r.assignment = a ∧ set.Accepts script initial a r.scope := by
  rw [attempt, Accepts]
  cases claims : (set.claimAll script a).run initial with
  | error rejection _ => simp
  | ok claimed bound =>
    cases checks : (set.verify script a).run bound with
    | error rejection _ => simp [checks]
    | ok _ final =>
      obtain ⟨scope, assignment⟩ := r
      simp [checks, eq_comm, and_comm]

end ClassSet

namespace SearchState

theorem isAccepted_offer (attempt : Assignment → Except Rejection Resolution) (batch : Nat) :
    Idle isAccepted (offer attempt batch) := by
  intro a s h
  cases s with
  | accepted r => rfl
  | searching waiting best => simp [isAccepted] at h

def resolution? : SearchState → Option Resolution
  | .accepted r => some r
  | .searching .. => none

theorem takeIn_append (outcomes more : List (Except Rejection Resolution))
    (best : Option Rejection) :
    takeIn (outcomes ++ more) best =
      match takeIn outcomes best with
      | .accepted r => .accepted r
      | .searching _ best => takeIn more best := by
  induction outcomes generalizing best with
  | nil => rfl
  | cons outcome outcomes ih =>
    cases outcome with
    | ok r => rfl
    | error rejection => exact ih _

theorem waiting_takeIn (outcomes : List (Except Rejection Resolution)) (best : Option Rejection)
    {waiting : List Assignment} {best' : Option Rejection}
    (h : takeIn outcomes best = .searching waiting best') : waiting = [] := by
  induction outcomes generalizing best with
  | nil => simpa [takeIn, eq_comm] using (SearchState.searching.inj h).1
  | cons outcome outcomes ih =>
    cases outcome with
    | ok r => simp [takeIn] at h
    | error rejection => exact ih _ h

/-- The size of the batches makes no difference: in the end, the assignments have been tried in
order. -/
theorem flush_foldl_offer (attempt : Assignment → Except Rejection Resolution) (batch : Nat)
    (tried waiting : List Assignment) (best : Option Rejection) :
    flush attempt (tried.foldl (fun s a => offer attempt batch a s) (.searching waiting best)) =
      takeIn ((waiting ++ tried).map attempt) best := by
  induction tried generalizing waiting best with
  | nil => simp [flush]
  | cons a tried ih =>
    have regrouped : waiting ++ a :: tried = (waiting ++ [a]) ++ tried := by simp
    rw [List.foldl_cons, regrouped]
    by_cases short : (waiting ++ [a]).length < batch
    · rw [offer, if_pos short, ih]
    · rw [offer, if_neg short, List.map_append, takeIn_append, flush]
      cases flushed : takeIn ((waiting ++ [a]).map attempt) best with
      | accepted r =>
        rw [foldl_of_done (isAccepted_offer attempt batch) _ _ rfl]
        rfl
      | searching rest best' =>
        obtain rfl := waiting_takeIn _ _ flushed
        rw [ih, List.nil_append]

theorem resolution?_takeIn (outcomes : List (Except Rejection Resolution))
    (best : Option Rejection) :
    (takeIn outcomes best).resolution? = outcomes.findSome? Except.toOption := by
  induction outcomes generalizing best with
  | nil => rfl
  | cons outcome outcomes ih =>
    cases outcome with
    | ok r => rfl
    | error rejection => exact ih _

end SearchState

namespace ClassSet

/-- An accepted full assignment before which, in the order of the digits, there is no other. -/
structure FirstAccepted (set : ClassSet) (script : Script) (initial : Scope)
    (r : Resolution) : Prop where
  full : set.FullAssignment script r.assignment
  accepted : set.Accepts script initial r.assignment r.scope
  least : ∀ b final, set.FullAssignment script b → set.Accepts script initial b final →
    b = r.assignment ∨ set.digits r.assignment < set.digits b

theorem FirstAccepted.unique {set : ClassSet} {script : Script} {initial : Scope}
    {r r' : Resolution} (first : set.FirstAccepted script initial r)
    (first' : set.FirstAccepted script initial r') : r = r' := by
  obtain ⟨scope, a⟩ := r
  obtain ⟨scope', a'⟩ := r'
  have same : a = a' := by
    rcases first.least _ _ first'.full first'.accepted with h | less
    · exact h.symm
    · rcases first'.least _ _ first.full first.accepted with h | less'
      · exact h
      · exact absurd less' (lt_asymm less)
  subst same
  obtain ⟨_, _, claims, checks⟩ := first.accepted
  obtain ⟨_, _, claims', checks'⟩ := first'.accepted
  rw [claims] at claims'
  cases claims'
  rw [checks] at checks'
  cases checks'
  rfl

theorem sameFirst_selections_choices (set : ClassSet) (script : Script) :
    SameFirst (fun a => ∀ e ∈ script.classes.zip a, set.NamedChoice e.1 e.2)
      (selections (script.classes.map set.choices))
      (selections (script.classes.map set.fullChoices)) :=
  SameFirst.selections script.classes fun block _ => set.sameFirst_choices block

/-- The result of an attempt, without the rejections. -/
def accepted? (set : ClassSet) (script : Script) (initial : Scope) (a : Assignment) :
    Option Resolution :=
  (set.attempt script initial (set.verify script) a).toOption

theorem accepted?_eq_some_iff (set : ClassSet) (script : Script) (initial : Scope)
    (a : Assignment) (r : Resolution) :
    set.accepted? script initial a = some r ↔
      r.assignment = a ∧ set.Accepts script initial a r.scope := by
  rw [← attempt_ok_iff, accepted?]
  cases set.attempt script initial (set.verify script) a with
  | ok r' => simp [Except.toOption]
  | error rejection => simp [Except.toOption]

/-- There is a search only if a list can have room for a batch. -/
theorem resolve_eq_search {o : ResolveOptions} (fits : o.Fits) (set : ClassSet) (script : Script)
    (initial : Scope) (verifier : Assignment → VerifyM Unit) :
    set.resolve script initial verifier o =
      (set.search script initial verifier o.batch).mapError .noMatch :=
  if_pos fits

theorem resolve_eq_ok {set : ClassSet} {script : Script} {initial : Scope}
    {verifier : Assignment → VerifyM Unit} {o : ResolveOptions} {r : Resolution} :
    set.resolve script initial verifier o = .ok r ↔
      o.Fits ∧ set.search script initial verifier o.batch = .ok r := by
  rw [resolve]
  split
  · rename_i fits
    refine ⟨fun found => ⟨fits, mapError_eq_ok found⟩, fun ⟨_, found⟩ => ?_⟩
    rw [found, mapError_ok]
  · rename_i large
    exact ⟨nofun, fun ⟨fits, _⟩ => absurd fits large⟩

theorem search_ok_iff_find? (set : ClassSet) (script : Script) (initial : Scope) (batch : Nat)
    (r : Resolution) :
    set.search script initial (set.verify script) batch = .ok r ↔
      (selections (script.classes.map set.fullChoices)).findSome?
        (set.accepted? script initial) = some r := by
  have searched := SearchState.flush_foldl_offer
    (set.attempt script initial (set.verify script)) batch
    (selections (script.classes.map set.choices)) [] none
  have result := SearchState.resolution?_takeIn
    ((selections (script.classes.map set.choices)).map
      (set.attempt script initial (set.verify script))) none
  have named : ∀ a, (set.accepted? script initial a).isSome = true →
      ∀ e ∈ script.classes.zip a, set.NamedChoice e.1 e.2 := by
    intro a found
    obtain ⟨r, h⟩ := Option.isSome_iff_exists.1 found
    obtain ⟨-, claimed, bound, -, checked⟩ := (set.accepted?_eq_some_iff _ _ _ _).1 h
    exact namedChoice_of_verify checked
  have narrowed : (selections (script.classes.map set.choices)).findSome?
        (set.accepted? script initial) =
      (selections (script.classes.map set.fullChoices)).findSome?
        (set.accepted? script initial) := by
    rw [findSome?_eq_find?_bind, findSome?_eq_find?_bind,
      set.sameFirst_selections_choices script _ named]
  rw [List.findSome?_map] at result
  change _ = (selections (script.classes.map set.choices)).findSome?
    (set.accepted? script initial) at result
  rw [← narrowed, ← result]
  simp only [search, set.forAssignments_eq_foldl (SearchState.isAccepted_offer _ _),
    List.nil_append] at searched ⊢
  rw [searched]
  cases takeIn : SearchState.takeIn ((selections (script.classes.map set.choices)).map
      (set.attempt script initial (set.verify script))) none with
  | accepted r' => simp [SearchState.resolution?]
  | searching waiting best => cases best <;> simp [SearchState.resolution?]

/-- The choices for a class block if the candidates are known. -/
def choicesAmong (set : ClassSet) (ids : List ClassId) (block : ClassBlock) : List ClassChoice :=
  choicesFrom (fillings block.mode (some ids))
    (fun cls => block.fields.map fun line => fillings line.mode (cls.map set.fieldCandidates))
    fun cls => block.methods.map fun b => fillings b.mode (cls.map set.methodCandidates)

/-- Once the candidates are known, the first accepted assignment can be computed. -/
theorem resolve_of_candidates {set : ClassSet} {ids : List ClassId} (known : set.candidates = ids)
    {script : Script} {initial : Scope} {o : ResolveOptions} {r : Resolution} (fits : o.Fits)
    (first : (selections (script.classes.map (set.choicesAmong ids))).findSome?
      (set.accepted? script initial) = some r) :
    set.resolve script initial (set.verify script) o = .ok r := by
  subst known
  exact resolve_eq_ok.2 ⟨fits, (set.search_ok_iff_find? script initial o.batch r).2 first⟩

/-- What the search returns is the first accepted assignment. -/
theorem firstAccepted_of_resolve {set : ClassSet} {script : Script} {initial : Scope}
    {o : ResolveOptions} {r : Resolution}
    (h : set.resolve script initial (set.verify script) o = .ok r) :
    set.FirstAccepted script initial r := by
  rw [resolve_eq_ok, search_ok_iff_find?, findSome?_eq_find?_bind, Option.bind_eq_some_iff] at h
  obtain ⟨-, a, first, h⟩ := h
  obtain ⟨rfl, accepted⟩ := (set.accepted?_eq_some_iff _ _ _ _).1 h
  have full := List.mem_of_find?_eq_some first
  refine ⟨(set.mem_selections_fullChoices _ _).1 full, accepted, fun b final hb acceptedB => ?_⟩
  refine set.fullAssignments_ordered script _ _ first b
    ((set.mem_selections_fullChoices _ _).2 hb) ?_
  rw [(set.accepted?_eq_some_iff script initial b ⟨final, b⟩).2 ⟨rfl, acceptedB⟩]
  rfl

theorem exists_resolve_of_accepts {set : ClassSet} {script : Script} {initial : Scope}
    {o : ResolveOptions} (fits : o.Fits) {a : Assignment} {final : Scope}
    (full : set.FullAssignment script a) (accepted : set.Accepts script initial a final) :
    ∃ r, set.resolve script initial (set.verify script) o = .ok r := by
  simp only [resolve_eq_ok, fits, true_and, search_ok_iff_find?]
  refine Option.isSome_iff_exists.1 (List.findSome?_isSome_iff.2
    ⟨a, (set.mem_selections_fullChoices _ _).2 full, ?_⟩)
  rw [(set.accepted?_eq_some_iff script initial a ⟨final, a⟩).2 ⟨rfl, accepted⟩]
  rfl

/-- As long as a list can have room for a batch, the search returns a resolution exactly if some
full assignment is accepted, and what it returns is the first accepted one, whatever the batches
are. -/
theorem resolve_first_accepted (set : ClassSet) (script : Script) (initial : Scope)
    (o : ResolveOptions) :
    ((∃ r, set.resolve script initial (set.verify script) o = .ok r) ↔
      o.Fits ∧ ∃ a final, set.FullAssignment script a ∧ set.Accepts script initial a final) ∧
    ∀ r, set.resolve script initial (set.verify script) o = .ok r ↔
      o.Fits ∧ set.FirstAccepted script initial r := by
  constructor
  · constructor
    · rintro ⟨r, h⟩
      have first := firstAccepted_of_resolve h
      exact ⟨(resolve_eq_ok.1 h).1, _, _, first.full, first.accepted⟩
    · rintro ⟨fits, a, final, full, accepted⟩
      exact exists_resolve_of_accepts fits full accepted
  · refine fun r => ⟨fun h => ⟨(resolve_eq_ok.1 h).1, firstAccepted_of_resolve h⟩,
      fun ⟨fits, first⟩ => ?_⟩
    obtain ⟨r', h⟩ := exists_resolve_of_accepts fits first.full first.accepted
    rw [h, (firstAccepted_of_resolve h).unique first]

end ClassSet

end JvmPatch
