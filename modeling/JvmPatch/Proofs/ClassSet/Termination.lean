import JvmPatch.Proofs.ClassSet.Hierarchy
import JvmPatch.Proofs.ClassSet.Sharing

/-! Inheritance can be worked out and members can be looked up on every graph of names. The programs
count down fuel; here they are shown to take the steps of relations that know of none, so the fuel
never cuts a walk short, and no walk visits a class twice. -/

set_option autoImplicit false

namespace JvmPatch.ClassSet

abbrev Ending (α : Type) := EStateM.Result ClassSetError ClassSet α

def Ending.left {α : Type} : Ending α → ClassSet
  | .ok _ later | .error _ later => later

def Ending.bare {α : Type} : Ending α → Ending PUnit
  | .ok _ later => .ok ⟨⟩ later
  | .error e later => .error e later

/-- The steps of a loop, each with what it visits. The loop stops at the first that fails. -/
inductive Loop {α τ : Type} (one : α → ClassSet → τ → Ending PUnit → Prop) :
    List α → ClassSet → List τ → Ending PUnit → Prop where
  | done {set : ClassSet} : Loop one [] set [] (.ok ⟨⟩ set)
  | stops {x : α} {xs : List α} {set later : ClassSet} {trace : τ} {e : ClassSetError} :
      one x set trace (.error e later) → Loop one (x :: xs) set [trace] (.error e later)
  | next {x : α} {xs : List α} {set middle : ClassSet} {trace : τ} {traces : List τ}
      {ending : Ending PUnit} :
      one x set trace (.ok ⟨⟩ middle) → Loop one xs middle traces ending →
      Loop one (x :: xs) set (trace :: traces) ending

/-- A method of a class is shown at the classes that are visited, one after the other. -/
def OverrideWalk (id : ClassId) (m : MethodId) (set : ClassSet) (visited : List ClassId)
    (ending : Ending PUnit) : Prop :=
  ∃ result, Walks (showOverride m) id [] (set.classAt id).supertypes set visited result ∧
    ending = Ending.bare result

/-- The inheritable methods of a class are shown, each on a walk of its own. -/
def OverrideWalks (id : ClassId) (set : ClassSet) (visited : List (List ClassId))
    (ending : Ending PUnit) : Prop :=
  Loop (OverrideWalk id) (set.inheritableMethods id) set visited ending

/-- A class becomes an owner of what it has, and then of what the other visited classes have. -/
def HeirWalk (id : ClassId) (set : ClassSet) (visited : List ClassId)
    (ending : Ending PUnit) : Prop :=
  let start := inheritMembers id id set
  ∃ above result, visited = id :: above ∧ ending = Ending.bare result ∧
    Walks (inheritMembers id) id [(start.classAt id).name] (start.classAt id).supertypes
      start above result

/-- The two passes over the candidates in which inheritance is worked out. -/
inductive Shares (set : ClassSet) : List (List (List ClassId)) → List (List ClassId) →
    Ending PUnit → Prop where
  | stops {first : List (List (List ClassId))} {e : ClassSetError} {later : ClassSet} :
      Loop OverrideWalks set.roots set first (.error e later) → Shares set first [] (.error e later)
  | shares {first : List (List (List ClassId))} {middle : ClassSet} {second : List (List ClassId)}
      {ending : Ending PUnit} :
      Loop OverrideWalks set.roots set first (.ok ⟨⟩ middle) →
        Loop HeirWalk set.roots middle second ending →
      Shares set first second ending

variable {set later latest base : ClassSet}

theorem bare_run {α : Type} (m : ClassSetM α) (set : ClassSet) :
    (m >>= fun _ => pure ⟨⟩ : ClassSetM PUnit).run set = Ending.bare (m.run set) := by
  rw [EStateM.run_bind]
  cases m.run set <;> rfl

theorem loop_forM {α τ : Type} {one : α → ClassSet → τ → Ending PUnit → Prop}
    {f : α → ClassSetM PUnit} (each : ∀ x set, ∃ trace, one x set trace ((f x).run set))
    (xs : List α) (set : ClassSet) :
    ∃ traces, Loop one xs set traces ((xs.forM f).run set) := by
  induction xs generalizing set with
  | nil => exact ⟨[], .done⟩
  | cons x xs ih =>
    obtain ⟨trace, first⟩ := each x set
    rw [show (x :: xs).forM f = (do f x; xs.forM f) from rfl, EStateM.run_bind]
    cases ran : (f x).run set with
    | error e later => exact ⟨[trace], .stops (ran ▸ first)⟩
    | ok _ middle =>
      obtain ⟨traces, rest⟩ := ih middle
      exact ⟨trace :: traces, .next (ran ▸ first) rest⟩

/-- What the steps of a loop keep holds before each of them. -/
theorem Loop.all {α τ : Type} {one : α → ClassSet → τ → Ending PUnit → Prop} {xs : List α}
    {traces : List τ} {ending : Ending PUnit} {P : ClassSet → Prop} {Q : τ → Prop}
    (loop : Loop one xs set traces ending)
    (each : ∀ x ∈ xs, ∀ u trace ending, P u → one x u trace ending → Q trace ∧
      P (Ending.left ending)) (holds : P set) :
    (∀ trace ∈ traces, Q trace) ∧ P (Ending.left ending) := by
  induction loop with
  | done => exact ⟨nofun, holds⟩
  | stops first =>
    obtain ⟨good, after⟩ := each _ List.mem_cons_self _ _ _ holds first
    exact ⟨fun trace member => List.mem_singleton.1 member ▸ good, after⟩
  | next first _ ih =>
    obtain ⟨good, middle⟩ := each _ List.mem_cons_self _ _ _ holds first
    obtain ⟨others, after⟩ := ih (fun x member => each x (.tail _ member)) middle
    exact ⟨List.forall_mem_cons.2 ⟨good, others⟩, after⟩

/-! ### The walks end -/

/-- Two sets have classes of the same names and the same classpath. -/
structure SameClassNames (set later : ClassSet) : Prop where
  classCount : later.classes.size = set.classes.size
  classpath : later.classpath = set.classpath
  name : ∀ id, (later.classAt id).name = (set.classAt id).name

theorem SameFrame.sameClassNames (same : SameFrame set later) : SameClassNames set later :=
  ⟨same.classCount, same.classpath, fun id => congrArg (·.name) (same.classAt id)⟩

theorem sameClassNames_showOverride (m : MethodId) (id : ClassId) (set : ClassSet) :
    SameClassNames set (showOverride m id set) := by
  obtain ⟨same, -⟩ | ⟨place, replaced, -, -, -, changed⟩ := showOverride_cases m id set
  · exact same.symm ▸ ⟨rfl, rfl, fun _ => rfl⟩
  · rw [changed]
    exact ⟨Array.size_modify .., rfl, fun cls => classAt_modifyClass_same _ (·.name)
      (f := fun c => { c with view := c.view.set place m }) (fun _ => rfl) id cls⟩

theorem sameClassNames_inheritMembers (heir id : ClassId) (set : ClassSet) :
    SameClassNames set (inheritMembers heir id set) :=
  (sameFrame_inheritMembers heir id set).sameClassNames

theorem Within.sameClassNames (within : Within base set) (same : SameClassNames set later) :
    Within base later := by
  refine ⟨same.classpath.trans within.1, fun name known => within.2 name ?_⟩
  rwa [find?_congr same.classCount same.name] at known

theorem Within.load {name : String} {found : Option ClassId} (within : Within base set)
    (ran : (load name).run set = .ok found later) : Within base later := by
  rcases load_cases set name with known | ⟨e, failed⟩ | ⟨added, unknown, provided, appended, loaded⟩
  · rw [known] at ran
    obtain ⟨-, rfl⟩ := EStateM.Result.ok.inj ran
    exact within
  · rw [failed] at ran
    cases ran
  · rw [loaded] at ran
    cases ran
    have search := appended.find?_eq
    obtain ⟨_, _, _, -, -, rfl⟩ := appended
    refine ⟨within.1, fun sought known => ?_⟩
    rw [search] at known
    by_cases isName : name = sought
    · rw [provided?_congr within.1, isName] at provided
      exact mem_nameable_of_provided provided
    · rw [if_neg isName, Option.or_none] at known
      exact within.2 sought known

theorem kept_within {step : ClassId → ClassSet → ClassSet}
    (steps : ∀ id u, SameClassNames u (step id u)) (base : ClassSet) :
    Kept step (Within base) :=
  ⟨fun within ran => within.load ran, fun id u within => within.sameClassNames (steps id u)⟩

theorem walks_forAncestors {step : ClassId → ClassSet → ClassSet}
    (steps : ∀ id u, SameClassNames u (step id u)) (origin : ClassId) (entered names : List String)
    (set : ClassSet) : ∃ visited,
      Walks step origin entered names set visited
        ((forAncestors step origin set.depthBound entered names).run set) := by
  refine walks_of_run (kept_within steps set) (fun within => within) origin _ names entered set
    (.refl set) ?_
  exact Nat.lt_of_le_of_lt (Finset.card_le_card Finset.sdiff_subset) set.card_nameable_lt

theorem overrideWalk_run (id : ClassId) (m : MethodId) (set : ClassSet) :
    ∃ visited, OverrideWalk id m set visited
    ((do let set ← get
         let _ ← forAncestors (showOverride m) id set.depthBound [] (set.classAt id).supertypes
         : ClassSetM PUnit).run set) := by
  obtain ⟨visited, walks⟩ :=
    walks_forAncestors (sameClassNames_showOverride m) id [] (set.classAt id).supertypes set
  exact ⟨visited, _, walks, bare_run _ set⟩

theorem overrideWalks_run (id : ClassId) (set : ClassSet) :
    ∃ visited, OverrideWalks id set visited ((showOverrides id).run set) :=
  loop_forM (overrideWalk_run id) (set.inheritableMethods id) set

theorem heirWalk_run (id : ClassId) (set : ClassSet) :
    ∃ visited, HeirWalk id set visited ((inheritAll id).run set) := by
  let start := inheritMembers id id set
  obtain ⟨above, walks⟩ :=
    walks_forAncestors (sameClassNames_inheritMembers id) id [(start.classAt id).name]
    (start.classAt id).supertypes start
  exact ⟨id :: above, above, _, rfl, bare_run _ start, walks⟩

theorem shares_run (set : ClassSet) :
    ∃ first second, Shares set first second (shareInherited.run set) := by
  obtain ⟨first, overrides⟩ := loop_forM overrideWalks_run set.roots set
  have run : shareInherited.run set =
    (do set.roots.forM showOverrides; set.roots.forM inheritAll : ClassSetM PUnit).run set := rfl
  rw [run, EStateM.run_bind]
  cases ran : (set.roots.forM showOverrides).run set with
  | error e later => exact ⟨first, [], .stops (ran ▸ overrides)⟩
  | ok _ middle =>
    obtain ⟨second, heirs⟩ := loop_forM heirWalk_run set.roots middle
    exact ⟨first, second, .shares (ran ▸ overrides) heirs⟩

/-! ### No class is visited twice -/

/-- Known classes stay known, under their names. -/
structure KeepsClasses (set later : ClassSet) : Prop where
  hasClass : ∀ id, set.HasClass id → later.HasClass id
  names : set.KeepsNames later

theorem KeepsClasses.refl (set : ClassSet) : KeepsClasses set set :=
  ⟨fun _ known => known, fun _ _ => rfl⟩

theorem KeepsClasses.trans (first : KeepsClasses set later) (second : KeepsClasses later latest) :
    KeepsClasses set latest where
  hasClass id known := second.hasClass id (first.hasClass id known)
  names id known := (second.names id (first.hasClass id known)).trans (first.names id known)

theorem SameClassNames.keepsClasses (same : SameClassNames set later) : KeepsClasses set later :=
  ⟨fun id known => by rwa [HasClass, same.classCount], fun id _ => same.name id⟩

theorem Appended.keepsClasses {name : String} {hidden : Bool}
    (appended : Appended set name hidden later) :
    KeepsClasses set later := by
  refine ⟨fun id known => ?_, fun id known => by rw [appended.untouched.classAt id known]⟩
  obtain ⟨c, _, _, -, -, rfl⟩ := appended
  exact set.hasClass_addClass c known

theorem keepsClasses_loadAncestor (origin : ClassId) (name : String) (set : ClassSet) :
    KeepsClasses set (leftBy (loadAncestor origin name) set) := by
  rw [leftBy, loadAncestor, EStateM.run_bind]
  rcases load_cases set name with known | ⟨e, failed⟩ | ⟨later, -, -, appended, loaded⟩
  · rw [known]
    cases set.find? name with
    | some id => exact .refl set
    | none => cases platform : isPlatformClass name <;> simpa [platform] using KeepsClasses.refl set
  · rw [failed]
    exact .refl set
  · rw [loaded]
    exact appended.keepsClasses

def namesOf (set : ClassSet) (ids : List ClassId) : List String :=
  ids.map fun id => (set.classAt id).name

theorem KeepsClasses.namesOf (kept : KeepsClasses set later) {ids : List ClassId}
    (known : ∀ id ∈ ids, set.HasClass id) :
    later.namesOf ids = set.namesOf ids :=
  List.map_congr_left fun id member => kept.names id (known id member)

/-- The visited classes are known in the end, and their names are different and have not been
entered before. -/
structure Visits (entered : List String) (visited : List ClassId) (later : ClassSet) : Prop where
  known : ∀ id ∈ visited, later.HasClass id
  distinct : (later.namesOf visited).Nodup
  apart : ∀ name ∈ later.namesOf visited, name ∉ entered

theorem Visits.nil (entered : List String) (later : ClassSet) : Visits entered [] later :=
  ⟨nofun, .nil, nofun⟩

theorem Visits.cons {name : String} {entered : List String} {id : ClassId} {visited : List ClassId}
    (fresh : Visits (name :: entered) visited later) (known : later.HasClass id)
    (isNamed : (later.classAt id).name = name) (new : name ∉ entered) :
    Visits entered (id :: visited) later where
  known := List.forall_mem_cons.2 ⟨known, fresh.known⟩
  distinct := List.nodup_cons.2 ⟨fun member => fresh.apart _ member (isNamed ▸ List.mem_cons_self),
    fresh.distinct⟩
  apart := by
    subst isNamed
    exact List.forall_mem_cons.2 ⟨new, fun n member before => fresh.apart n member (.tail _ before)⟩

theorem Visits.append {entered between : List String} {inner outer : List ClassId}
    (first : Visits entered inner later) (second : Visits between outer later)
    (more : entered ⊆ between) (enters : later.namesOf inner ⊆ between) :
    Visits entered (inner ++ outer) later where
  known := List.forall_mem_append.2 ⟨first.known, second.known⟩
  distinct := by
    rw [namesOf, List.map_append]
    refine List.nodup_append.2 ⟨first.distinct, second.distinct, fun n before m after same => ?_⟩
    exact second.apart m after (same ▸ enters before)
  apart := by
    rw [namesOf, List.map_append, List.forall_mem_append]
    exact ⟨first.apart, fun n member before => second.apart n member (more before)⟩

theorem Visits.onward {entered : List String} {visited : List ClassId}
    (fresh : Visits entered visited later) (kept : KeepsClasses later latest) :
    Visits entered visited latest := by
  have names := kept.namesOf fresh.known
  exact ⟨fun id member => kept.hasClass id (fresh.known id member), names ▸ fresh.distinct,
    names ▸ fresh.apart⟩

/-- A walk visits classes of names that have not been entered, and no two of one name. -/
theorem Walks.fresh {step : ClassId → ClassSet → ClassSet} {origin : ClassId}
    {entered names : List String} {visited : List ClassId} {result : Ending (List String)}
    (walks : Walks step origin entered names set visited result)
    (steps : ∀ id u, KeepsClasses u (step id u)) :
    KeepsClasses set (Ending.left result) ∧ Visits entered visited (Ending.left result) ∧
      ∀ entered' later, result = .ok entered' later → entered ⊆ entered' ∧
        later.namesOf visited ⊆ entered' := by
  induction walks with
  | done =>
    refine ⟨.refl _, .nil _ _, fun entered' later is => ?_⟩
    cases is
    exact ⟨fun _ h => h, nofun⟩
  | again _ _ ih => exact ih
  | fails _ loads => exact ⟨leftBy_error loads ▸ keepsClasses_loadAncestor _ _ _, .nil _ _, nofun⟩
  | missing _ loads _ ih =>
    obtain ⟨kept, fresh, enters⟩ := ih
    have loading := leftBy_ok loads ▸ keepsClasses_loadAncestor _ _ _
    refine ⟨loading.trans kept, ⟨fresh.known, fresh.distinct, fun n member before => ?_⟩,
      fun entered' later is => ?_⟩
    · exact fresh.apart n member (.tail _ before)
    · obtain ⟨more, inside⟩ := enters entered' later is
      exact ⟨fun _ h => more (.tail _ h), inside⟩
  | @stops name names entered set loaded later id visited e new loads _ ih =>
    obtain ⟨kept, fresh, -⟩ := ih
    obtain ⟨known, isNamed⟩ := find?_eq_some (load_found (loadAncestor_ok loads).1)
    have loading := leftBy_ok loads ▸ keepsClasses_loadAncestor origin name set
    have after := (steps id loaded).trans kept
    exact ⟨loading.trans after,
      fresh.cons (after.hasClass id known) ((after.names id known).trans isNamed) new, nofun⟩
  | @enter name names entered between set loaded middle id inner outer result new loads
    _ _ ihInner ihOuter =>
    obtain ⟨keptInner, freshInner, enters⟩ := ihInner
    obtain ⟨keptOuter, freshOuter, entersOuter⟩ := ihOuter
    obtain ⟨more, inside⟩ := enters between middle rfl
    obtain ⟨known, isNamed⟩ := find?_eq_some (load_found (loadAncestor_ok loads).1)
    have loading := leftBy_ok loads ▸ keepsClasses_loadAncestor origin name set
    have atClass := (steps id loaded).trans keptInner
    have here := freshInner.cons (atClass.hasClass id known)
      ((atClass.names id known).trans isNamed) new
    have names := keptOuter.namesOf here.known
    have name' : (middle.classAt id).name = name := (atClass.names id known).trans isNamed
    have first : (middle.classAt id).name ∈ between := name'.symm ▸ more List.mem_cons_self
    have between_of_names : middle.namesOf (id :: inner) ⊆ between :=
      List.cons_subset.2 ⟨first, inside⟩
    refine ⟨loading.trans (atClass.trans keptOuter), (here.onward keptOuter).append freshOuter
      (fun _ h => more (.tail _ h)) (names ▸ between_of_names), fun entered' later is => ?_⟩
    obtain ⟨more', inside'⟩ := entersOuter entered' later is
    subst is
    refine ⟨fun _ h => more' (more (.tail _ h)), ?_⟩
    rw [namesOf, List.map_append]
    exact List.append_subset.2 ⟨fun _ h => more' (between_of_names (names ▸ h)), inside'⟩

theorem Visits.nodup {entered : List String} {visited : List ClassId}
    (fresh : Visits entered visited later) :
    visited.Nodup := fresh.distinct.of_map

theorem left_bare {α : Type} (ending : Ending α) :
    Ending.left (Ending.bare ending) = Ending.left ending := by
  cases ending <;> rfl

theorem OverrideWalk.fresh {id : ClassId} {m : MethodId} {visited : List ClassId}
    {ending : Ending PUnit} (walk : OverrideWalk id m set visited ending) :
    KeepsClasses set (Ending.left ending) ∧ visited.Nodup := by
  obtain ⟨result, walks, rfl⟩ := walk
  obtain ⟨kept, fresh, -⟩ :=
    walks.fresh fun cls u => (sameClassNames_showOverride m cls u).keepsClasses
  exact ⟨left_bare result ▸ kept, fresh.nodup⟩

theorem OverrideWalks.fresh {id : ClassId} {lists : List (List ClassId)} {ending : Ending PUnit}
    (walks : OverrideWalks id set lists ending) :
    KeepsClasses set (Ending.left ending) ∧ ∀ visited ∈ lists, visited.Nodup := by
  refine (walks.all (P := KeepsClasses set) (fun m _ u visited ending kept walk => ?_)
    (.refl set)).symm
  exact ⟨walk.fresh.2, kept.trans walk.fresh.1⟩

theorem HeirWalk.fresh {id : ClassId} {visited : List ClassId} {ending : Ending PUnit}
    (walk : HeirWalk id set visited ending) (known : set.HasClass id) :
    KeepsClasses set (Ending.left ending) ∧ visited.Nodup := by
  obtain ⟨above, result, rfl, rfl, walks⟩ := walk
  have own := (sameClassNames_inheritMembers id id set).keepsClasses
  obtain ⟨kept, fresh, -⟩ :=
    walks.fresh fun cls u => (sameClassNames_inheritMembers id cls u).keepsClasses
  refine ⟨left_bare result ▸ own.trans kept, List.nodup_cons.2 ⟨fun member => ?_, fresh.nodup⟩⟩
  have name := kept.names id (own.hasClass id known)
  exact fresh.apart _ (List.mem_map_of_mem member) (name ▸ List.mem_cons_self)

/-- No pass visits a class twice on one walk. -/
theorem Shares.nodup {first : List (List (List ClassId))} {second : List (List ClassId)}
    {ending : Ending PUnit} (shares : Shares set first second ending) :
    (∀ lists ∈ first, ∀ visited ∈ lists, visited.Nodup) ∧ ∀ visited ∈ second, visited.Nodup := by
  have overrides {ending : Ending PUnit} (loop : Loop OverrideWalks set.roots set first ending) :=
    loop.all (P := KeepsClasses set) (fun id _ u lists ending kept walks => ⟨walks.fresh.2,
      kept.trans walks.fresh.1⟩)
      (.refl set)
  cases shares with
  | stops loop => exact ⟨(overrides loop).1, nofun⟩
  | shares loop heirs =>
    obtain ⟨distinct, kept⟩ := overrides loop
    refine ⟨distinct, (heirs.all (P := KeepsClasses set)
      (fun id root u visited ending kept walk => ?_) kept).1⟩
    have fresh := walk.fresh (kept.hasClass id (known_of_root root))
    exact ⟨fresh.2, kept.trans fresh.1⟩

/-- Whatever names of supertypes form cycles, inheritance is worked out to its end, and so is every
search of a hierarchy. No walk visits a class twice. -/
theorem walks_end (set : ClassSet) :
    (∃ first second, Shares set first second (shareInherited.run set) ∧
      (∀ lists ∈ first, ∀ visited ∈ lists, visited.Nodup) ∧ ∀ visited ∈ second, visited.Nodup) ∧
    ∀ id, ∃ chain interfaces, SuperWalk set [] id chain ∧
      InterfaceWalk set chain (chain.flatMap set.interfacesOf) interfaces ∧
        (chain ++ interfaces).Nodup ∧
      (∀ name desc, set.findMethod id name desc =
        (chain ++ interfaces).findSome? (set.viewed? name desc)) ∧
      (∀ name desc, set.findField id name desc =
        (chain ++ interfaces).findSome? (set.declaredField? name desc)) ∧
      (∀ m, set.bodyOf id m =
        chain.findSome? (set.declaredMethod? (set.methodAt m).name (set.methodAt m).desc)) ∧
      ∀ cls, cls ∈ set.ancestors id ↔ cls ∈ chain ++ interfaces ∧ cls ≠ id := by
  refine ⟨?_, fun id => ⟨set.superChain id, set.interfaceOrder id, set.superWalk_superChain id,
    set.interfaceWalk_interfaceOrder id, set.nodup_hierarchy id, fun _ _ => rfl, fun _ _ =>
      rfl, fun _ => rfl, ?_⟩⟩
  · obtain ⟨first, second, shares⟩ := shares_run set
    exact ⟨first, second, shares, shares.nodup⟩
  · intro cls
    rw [ancestors, List.mem_mergeSort, List.mem_filter, hierarchy_eq, bne_iff_ne]

end JvmPatch.ClassSet
