import JvmPatch.ClassSet.Inheritance
import JvmPatch.Proofs.ClassSet.Evolution
import JvmPatch.Proofs.Steps
import Mathlib.Data.List.Nodup

/-! Taking classes in and working out inheritance keeps a class set well-formed: classes list their
own members only, and show known methods only. -/

set_option autoImplicit false

namespace JvmPatch

namespace ClassSet

def Permit.everything : Permit :=
  ⟨fun _ => True, fun _ => True, fun _ => True, fun _ _ _ => True⟩

theorem wellFormed_empty (classpath : Classpath) :
    WellFormed { classpath := classpath } := by
  have nothing : ∀ cls, ({ classpath := classpath } : ClassSet).classAt cls = default := by
    intro cls
    simp [classAt]
  constructor <;>
  · intro cls m member
    rw [nothing] at member
    cases member

/-- A class of the classpath is read from the bytes of a file. -/
theorem exists_lookup_of_onClasspath? {set : ClassSet} {name : String} {file : ClassFile}
    (provided : set.onClasspath? name = .ok (some file)) :
    ∃ bytes, set.classpath.lookup name = some (.content bytes) ∧
      ClassFile.read bytes = .ok file := by
  rw [onClasspath?] at provided
  split at provided
  · cases provided
  · cases provided
  · rename_i bytes listed
    refine ⟨bytes, listed, ?_⟩
    cases read : ClassFile.read bytes with
    | ok f =>
      rw [read] at provided
      cases provided
      rfl
    | error e =>
      rw [read] at provided
      cases provided

theorem evolves_foldl {α : Type} {may : Permit} {f : ClassSet → α → ClassSet}
    (each : ∀ set x, Evolves may set (f set x)) (xs : List α) (set : ClassSet) :
    Evolves may set (xs.foldl f set) := by
  induction xs generalizing set with
  | nil => exact .refl may set
  | cons x xs ih => exact (each set x).trans (ih _)

/-- What holds when the class has come in and is kept by each of its members, holds in the end. -/
theorem insert?_rule {P : ClassSet → Prop} {set later : ClassSet} {file : ClassFile}
    {source : Option Bytes} {hidden : Bool} (inserted : set.insert? file source hidden = some later)
    (start : P (set.addClass { file.header with
        hidden := hidden, modified := false, source := source }))
    (field : ∀ u f, P u → P (u.addField set.nextClass f hidden))
    (method : ∀ u, ∀ m ∈ file.methods, P u → P (u.addMethod set.nextClass m hidden)) : P later := by
  unfold insert? at inserted
  split at inserted
  · cases inserted
  obtain rfl := Option.some.inj inserted
  have fields : ∀ (fs : List FieldDecl) (u : ClassSet), P u →
      P (fs.foldl (fun u f => u.addField set.nextClass f hidden) u) := by
    intro fs
    induction fs with
    | nil => exact fun _ h => h
    | cons f fs ih => exact fun u h => ih _ (field u f h)
  have methods : ∀ (ms : List MethodDecl) (u : ClassSet), (∀ m ∈ ms, m ∈ file.methods) → P u →
      P (ms.foldl (fun u m => u.addMethod set.nextClass m hidden) u) := by
    intro ms
    induction ms with
    | nil => exact fun _ _ h => h
    | cons m ms ih =>
      exact fun u inside h => ih _ (fun x member => inside x (.tail _ member))
        (method u m (inside m List.mem_cons_self) h)
  exact methods _ _ (fun _ member => member) (fields _ _ start)

theorem evolves_insert? {set later : ClassSet} {file : ClassFile} {source : Option Bytes}
    {hidden : Bool} (inserted : set.insert? file source hidden = some later) :
    Evolves .everything set later :=
  insert?_rule inserted (.addClass _ set rfl rfl rfl)
    (fun u f evolves => evolves.trans (.addField trivial u f hidden))
    fun u m _ evolves => evolves.trans (.addMethod trivial u m hidden)

/-- The class set of some files, where a file whose name is taken is passed over. -/
def ofFiles (files : List ClassFile) : ClassSet :=
  files.foldl (fun set file => (set.insert? file none false).getD set) {}

theorem ofFiles_rule {P : ClassSet → Prop} (start : P {}) (insert : ∀ set file later, P set →
    set.insert? file none false = some later → P later) (files : List ClassFile) :
      P (ofFiles files) := by
  have all : ∀ set, P set →
      P (files.foldl (fun set file => (set.insert? file none false).getD set) set) := by
    induction files with
    | nil => exact fun _ holds => holds
    | cons file files ih =>
      intro set holds
      refine ih ((set.insert? file none false).getD set) ?_
      cases inserted : set.insert? file none false with
      | none => exact holds
      | some later => exact insert set file later holds inserted
  exact all {} start

theorem wellFormed_ofFiles (files : List ClassFile) : (ofFiles files).WellFormed :=
  ofFiles_rule (wellFormed_empty [])
    (fun _ _ _ formed inserted => (evolves_insert? inserted).wellFormed formed) files

/-- A step changes a class set by permitted changes, also if it fails. -/
def GrowsAt {α : Type} (s : ClassSet) (m : ClassSetM α) : Prop :=
  match m.run s with
  | .ok _ t | .error _ t => Evolves .everything s t

namespace GrowsAt

variable {α β : Type} {s : ClassSet}

theorem ok {m : ClassSetM α} (grows : GrowsAt s m) {t : ClassSet} {x : α}
    (h : m.run s = .ok x t) : Evolves .everything s t := by
  rwa [GrowsAt, h] at grows

theorem error {m : ClassSetM α} (grows : GrowsAt s m) {t : ClassSet} {e : ClassSetError}
    (h : m.run s = .error e t) : Evolves .everything s t := by
  rwa [GrowsAt, h] at grows

protected theorem pure (s : ClassSet) (x : α) : GrowsAt s (pure x : ClassSetM α) := .refl _ s

protected theorem throw (s : ClassSet) (e : ClassSetError) :
    GrowsAt s (throw e : ClassSetM α) := .refl _ s

protected theorem bind {m : ClassSetM α} {next : α → ClassSetM β} (first : GrowsAt s m)
    (rest : ∀ x t, m.run s = .ok x t → GrowsAt t (next x)) : GrowsAt s (m >>= next) := by
  rw [GrowsAt, EStateM.run_bind]
  cases h : m.run s with
  | error e t => exact first.error h
  | ok x t =>
    have second := rest x t h
    dsimp only
    cases h' : (next x).run t with
    | error e u => exact (first.ok h).trans (second.error h')
    | ok y u => exact (first.ok h).trans (second.ok h')

/-- A step that begins with reading the class set. -/
protected theorem get {next : ClassSet → ClassSetM β} (rest : GrowsAt s (next s)) :
    GrowsAt s (get >>= next) := rest

protected theorem modify {f : ClassSet → ClassSet} (evolves : Evolves .everything s (f s)) :
    GrowsAt s (modify f : ClassSetM Unit) := evolves

protected theorem forM {f : α → ClassSetM PUnit} {xs : List α}
    (each : ∀ x ∈ xs, ∀ t, Evolves .everything s t → GrowsAt t (f x)) :
    GrowsAt s (xs.forM f) := by
  induction xs generalizing s with
  | nil => exact .pure s _
  | cons x xs ih =>
    have first := each x List.mem_cons_self s (.refl _ s)
    exact first.bind fun _ t ran => ih fun y h u reached =>
      each y (.tail _ h) u ((first.ok ran).trans reached)

protected theorem foldlM {f : β → α → ClassSetM β} {xs : List α} {b : β}
    (each : ∀ x ∈ xs, ∀ b t, Evolves .everything s t → GrowsAt t (f b x)) :
    GrowsAt s (xs.foldlM f b) := by
  induction xs generalizing s b with
  | nil => exact .pure s _
  | cons x xs ih =>
    have first := each x List.mem_cons_self b s (.refl _ s)
    rw [List.foldlM_cons]
    exact first.bind fun _ t ran => ih fun y h b u reached =>
      each y (.tail _ h) b u ((first.ok ran).trans reached)

protected theorem load (s : ClassSet) (name : String) : GrowsAt s (load name) := by
  refine .get ?_
  split
  · exact .pure s _
  split
  · exact .throw s _
  · exact .pure s _
  split
  · split
    · rename_i inserted
      exact GrowsAt.bind (m := EStateM.set _) (evolves_insert? inserted) fun _ t _ => .pure t _
    · exact .throw s _
  · exact .throw s _

protected theorem loadAncestor (s : ClassSet) (origin : ClassId) (name : String) :
    GrowsAt s (loadAncestor origin name) := by
  refine (GrowsAt.load s name).bind fun found t _ => ?_
  split
  · exact .pure t _
  · split
    · exact .pure t _
    · exact .get (.throw t _)

protected theorem forAncestors {step : ClassId → ClassSet → ClassSet}
    (evolves : ∀ id t, Evolves .everything s t → Evolves .everything t (step id t))
    (origin : ClassId) (fuel : Nat) (entered names : List String) :
    GrowsAt s (forAncestors step origin fuel entered names) := by
  induction fuel generalizing s entered names with
  | zero => exact .pure s _
  | succ fuel ih =>
    refine .foldlM fun name _ entered t reached => ?_
    split
    · exact .pure t _
    · have loads := GrowsAt.loadAncestor t origin name
      refine loads.bind fun found u ran => ?_
      have toHere := reached.trans (loads.ok ran)
      split
      · exact .pure u _
      · rename_i id
        have steps := evolves id u toHere
        refine (GrowsAt.modify steps).bind fun _ v ran => ?_
        cases ran
        refine .get (ih (fun id w more => evolves id w ?_) _ _)
        exact (toHere.trans steps).trans more

end GrowsAt

theorem evolves_leftBy {α : Type} {m : ClassSetM α} {set : ClassSet} (grows : GrowsAt set m) :
    Evolves .everything set (leftBy m set) := by
  rw [leftBy]
  rw [GrowsAt] at grows
  split at grows <;> simp_all

theorem evolves_showOverride {m : MethodId} {set : ClassSet} (known : set.HasMethod m)
    (id : ClassId) : Evolves .everything set (showOverride m id set) := by
  unfold showOverride
  dsimp only
  split
  · exact .refl _ set
  split
  · exact .refl _ set
  split
  · exact .refl _ set
  · refine (Evolves.modifyMethod ?_ (.inl ?_) (.inl ?_) set).trans
      (.modifyClass_of_sameLists _ _ id ?_ ?_)
    · exact fun e => ⟨rfl, rfl, rfl, rfl⟩
    · exact fun e => rfl
    · exact fun e => rfl
    · exact fun c => ⟨rfl, rfl, rfl⟩
    · intro c x member
      rcases List.mem_or_eq_of_mem_set member with old | rfl
      · exact .inl old
      · exact .inr ((set.hasMethod_modifyMethod x x _).2 known)

theorem evolves_inheritMembers (heir id : ClassId) (set : ClassSet) :
    Evolves .everything set (inheritMembers heir id set) := by
  refine (evolves_foldl (fun set f => .modifyField ?_ ?_ _ set f) _ set).trans
    (evolves_foldl (fun set m => .modifyMethod ?_ (.inl ?_) (.inl ?_) set) _ _)
  · exact fun e => rfl
  · exact fun e => rfl
  · exact fun e => ⟨rfl, rfl, rfl, rfl⟩
  · exact fun e => rfl
  · exact fun e => rfl

namespace GrowsAt

variable {s : ClassSet}

protected theorem showOverrides (wellFormed : s.WellFormed) (id : ClassId) :
    GrowsAt s (showOverrides id) := by
  refine .get (.forM fun m member t reached => .get ?_)
  have known : s.HasMethod m :=
    (wellFormed.methods id m (List.mem_filter.1 member).1).1
  refine (GrowsAt.forAncestors (fun other u more => ?_) _ _ _ _).bind fun _ u _ => .pure u _
  exact evolves_showOverride (more.hasMethod m (reached.hasMethod m known)) other

protected theorem inheritAll (s : ClassSet) (id : ClassId) : GrowsAt s (inheritAll id) := by
  refine (GrowsAt.modify (evolves_inheritMembers id id s)).bind fun _ t _ => .get ?_
  exact (GrowsAt.forAncestors (fun other u _ => evolves_inheritMembers id other u) _ _ _ _).bind
    fun _ u _ => .pure u _

protected theorem shareInherited (wellFormed : s.WellFormed) : GrowsAt s shareInherited := by
  refine .get (GrowsAt.bind (.forM fun id _ t reached => ?_) fun _ t _ =>
    .forM fun id _ u _ => .inheritAll u id)
  exact .showOverrides (reached.wellFormed wellFormed) id

protected theorem loadOrStub (s : ClassSet) (name : String) : GrowsAt s (loadOrStub name) := by
  refine .get ?_
  split
  · exact .pure s _
  · refine (GrowsAt.load s name).bind fun found t _ => ?_
    split
    · exact .get (.pure t _)
    · exact GrowsAt.bind (.modify (.addClass _ t rfl rfl rfl)) fun _ u _ => .pure u _

protected theorem loadLevel (s : ClassSet) (names : List String) : GrowsAt s (loadLevel names) := by
  induction names generalizing s with
  | nil => exact .pure s _
  | cons name names ih =>
    exact (GrowsAt.loadOrStub s name).bind fun _ t _ => (ih t).bind fun _ u _ => .pure u _

protected theorem loadLevels (s : ClassSet) (fuel : Nat) (names : List String) :
    GrowsAt s (loadLevels fuel names) := by
  induction fuel generalizing s names with
  | zero => exact .pure s _
  | succ fuel ih => exact (GrowsAt.loadLevel s names).bind fun next t _ => ih t next

protected theorem loadMentioned (s : ClassSet) : GrowsAt s loadMentioned :=
  .get (.loadLevels s _ _)

end GrowsAt

/-! The candidates are the only part of making a class set ready that is sorted. Once they are
known, the rest can be computed. -/

theorem candidates_byName (set : ClassSet) :
    set.candidates.Pairwise fun a b =>
      (compare (set.classAt a).name (set.classAt b).name).isLE = true := by
  refine List.pairwise_mergeSort (fun a b c => ?_) (fun a b => ?_) _
  · exact Std.TransCmp.isLE_trans
  · have swapped : compare (set.classAt b).name (set.classAt a).name =
        (compare (set.classAt a).name (set.classAt b).name).swap := Std.OrientedCmp.eq_swap
    rw [swapped]
    cases compare (set.classAt a).name (set.classAt b).name <;> rfl

/-- The candidates are known once the visible classes have been put in order. -/
theorem candidates_of_sorted {set : ClassSet} {ids : List ClassId}
    (visible : ids.Perm (set.classIds.filter set.isCandidate))
    (sorted : (ids.map fun id => (set.classAt id).name).Pairwise fun a b => compare a b = .lt) :
    set.candidates = ids := by
  have perm : set.candidates.Perm ids := (List.mergeSort_perm _ _).trans visible.symm
  have apart : (ids.map fun id => (set.classAt id).name).Nodup := by
    refine sorted.imp fun {a b} before same => ?_
    have alike : compare b b = .eq := Std.ReflCmp.compare_self
    rw [same, alike] at before
    cases before
  refine perm.eq_of_pairwise (fun a b isLeft isRight le ge => ?_) set.candidates_byName
    ((List.pairwise_map.1 sorted).imp fun before => by rw [before]; rfl)
  exact List.inj_on_of_nodup_map apart (perm.mem_iff.1 isLeft) isRight
    (Std.LawfulEqCmp.eq_of_compare (Std.OrientedCmp.isLE_antisymm le ge))

theorem shareInherited_of_candidates {set : ClassSet} {ids : List ClassId}
    (candidates : set.candidates = ids) :
    shareInherited.run set = (do
      (ids.filter fun id => !(set.classAt id).isExternal).forM showOverrides
      (ids.filter fun id => !(set.classAt id).isExternal).forM inheritAll).run set := by
  subst candidates
  rfl

theorem loadMentioned_of_candidates {set : ClassSet} {ids : List ClassId}
    (candidates : set.candidates = ids) :
    loadMentioned.run set =
      (loadLevels (set.classpath.length + 1) (ids.flatMap set.mentioned)).run set := by
  subst candidates
  rfl

theorem prepare_of_candidates {set shared : ClassSet} {ids : List ClassId}
    (ran : shareInherited.run set = .ok () shared) (candidates : shared.candidates = ids) :
    prepare.run set = (loadLevels (shared.classpath.length + 1) (ids.flatMap shared.mentioned)).run
      shared := by
  rw [prepare, EStateM.run_bind, ran]
  exact loadMentioned_of_candidates candidates

end ClassSet

end JvmPatch
