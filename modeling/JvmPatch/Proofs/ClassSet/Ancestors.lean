import JvmPatch.Proofs.ClassSet.Supply
import Mathlib.Data.Finset.Card
import Mathlib.Data.Finset.Dedup

/-! The walk over the ancestors of a class. It visits exactly the classes that can be reached
through the names of supertypes, whatever is done at each of them. -/

set_option autoImplicit false

namespace JvmPatch.ClassSet

/-- The names that can be reached from some names by way of known classes without a barred name. -/
inductive Reached (set : ClassSet) (barred names : List String) : String → Prop where
  | named {name : String} : name ∈ names → name ∉ barred → Reached set barred names name
  | above {name supertype : String} {id : ClassId} : Reached set barred names name →
      set.find? name = some id →
      supertype ∈ (set.classAt id).supertypes → supertype ∉ barred →
        Reached set barred names supertype

/-- A class of a name is known, or it belongs to the platform and nobody provides it. -/
def Resolves (set : ClassSet) (name : String) : Prop :=
  (set.find? name).isSome ∨ set.onClasspath? name = .ok none ∧ isPlatformClass name = true

variable {set later base : ClassSet}

theorem Reached.mono {barred barred' names names' : List String} {name : String}
    (reached : set.Reached barred names name) (fewer : barred' ⊆ barred)
    (starts : ∀ start ∈ names, start ∉ barred → set.Reached barred' names' start) :
    set.Reached barred' names' name := by
  induction reached with
  | named member free => exact starts _ member free
  | above _ found supertype free ih => exact .above ih found supertype fun is => free (fewer is)

theorem Supplied.reached (supplied : Supplied set later) {barred names : List String}
    {name : String} (reached : set.Reached barred names name) :
    later.Reached barred names name := by
  induction reached with
  | named member free => exact .named member free
  | above _ found supertype free ih =>
    rw [← supplied.supertypes (find?_eq_some found).1] at supertype
    exact .above ih (supplied.find? _ _ found) supertype free

/-- What resolves is not looked up in vain, so no class can come in under the name later. -/
theorem Supplied.found_before (supplied : Supplied set later) {name : String} {id : ClassId}
    (resolves : set.Resolves name) (found : later.find? name = some id) :
    set.find? name = some id := by
  have known : (set.find? name).isSome := by
    rcases resolves with known | ⟨missing, -⟩
    · exact known
    · rcases supplied.provided name (by rw [found]; rfl) with known | provided
      · exact known
      · rw [provided?_of_onClasspath? missing] at provided
        cases provided
  obtain ⟨id', found'⟩ := Option.isSome_iff_exists.1 known
  rw [found', ← supplied.find? name id' found', found]

theorem Supplied.resolves (supplied : Supplied set later) {name : String}
    (resolves : set.Resolves name) :
    later.Resolves name := by
  rcases resolves with known | ⟨missing, platform⟩
  · obtain ⟨id, found⟩ := Option.isSome_iff_exists.1 known
    exact .inl (by rw [supplied.find? name id found]; rfl)
  · exact .inr ⟨onClasspath?_congr supplied.classpath name ▸ missing, platform⟩

/-- Once all names that can be reached resolve, classes that come in later do not make more of
them. -/
theorem Supplied.reached_iff (supplied : Supplied set later) {barred names : List String}
    (resolves : ∀ name, set.Reached barred names name → set.Resolves name) (name : String) :
    later.Reached barred names name ↔ set.Reached barred names name := by
  refine ⟨fun reached => ?_, supplied.reached⟩
  induction reached with
  | named member free => exact .named member free
  | @above name _ id _ found supertype free ih =>
    have found' := supplied.found_before (resolves name ih) found
    rw [supplied.supertypes (find?_eq_some found').1] at supertype
    exact .above ih found' supertype free

/-- The steps of a walk, with the names that have been entered and the classes that are visited. -/
inductive Walk (step : ClassId → ClassSet → ClassSet) :
    List String → List String → ClassSet → List ClassId → List String → ClassSet → Prop where
  | done {entered : List String} {set : ClassSet} : Walk step entered [] set [] entered set
  | again {name : String} {names entered entered' : List String} {set later : ClassSet}
      {visited : List ClassId} :
      name ∈ entered → Walk step entered names set visited entered' later →
      Walk step entered (name :: names) set visited entered' later
  | missing {name : String} {names entered entered' : List String} {set later : ClassSet}
      {visited : List ClassId} :
      (load name).run set = .ok none set → isPlatformClass name = true →
      Walk step (name :: entered) names set visited entered' later →
      Walk step entered (name :: names) set visited entered' later
  | enter {name : String} {names entered between entered' : List String}
      {set loaded middle later : ClassSet}
      {id : ClassId} {inner outer : List ClassId} :
      name ∉ entered → (load name).run set = .ok (some id) loaded →
      Walk step (name :: entered) ((step id loaded).classAt id).supertypes
        (step id loaded) inner between middle →
      Walk step between names middle outer entered' later →
      Walk step entered (name :: names) set (id :: inner ++ outer) entered' later

/-- A step adds no classes and does not change those of the frame of a class set. -/
def Quiet (base : ClassSet) (step : ClassId → ClassSet → ClassSet) : Prop :=
  ∀ id set, Supplied base set → Supplied set (step id set)

/-- Something is kept by loading classes and by a step at any class. -/
structure Kept (step : ClassId → ClassSet → ClassSet) (P : ClassSet → Prop) : Prop where
  load : ∀ {name found set later}, P set → (load name).run set = .ok found later → P later
  step : ∀ id {set}, P set → P (step id set)

namespace Walk

variable {step : ClassId → ClassSet → ClassSet} {entered entered' names : List String}
  {visited : List ClassId}

theorem keeps {P : ClassSet → Prop} (walk : Walk step entered names set visited entered' later)
    (load : ∀ {name found set later}, P set → (load name).run set = .ok found later → P later)
    (steps : ∀ id ∈ visited, ∀ {set}, P set → P (step id set)) (holds : P set) : P later := by
  induction walk with
  | done => exact holds
  | again _ _ ih | missing _ _ _ ih => exact ih steps holds
  | enter _ ran _ _ inner outer =>
    have atClass := steps _ List.mem_cons_self (load holds ran)
    have inside := inner
      (fun id member => steps id (.tail _ (List.mem_append_left _ member))) atClass
    exact outer (fun id member => steps id (.tail _ (List.mem_append_right _ member))) inside

/-- What the step at a class makes true is true after the class has been visited. -/
theorem makes {I P : ClassSet → Prop} (walk : Walk step entered names set visited entered' later)
    (formed : ∀ {set}, I set → set.WellFormed) (kept : Kept step I) (keptToo : Kept step P)
    {id : ClassId} (makes : ∀ {set}, I set → set.HasClass id → P (step id set))
    (member : id ∈ visited) (holds : I set) :
    P later := by
  induction walk with
  | done => cases member
  | again _ _ ih | missing _ _ _ ih => exact ih member holds
  | enter _ ran innerWalk outerWalk inner outer =>
    have loaded := kept.load holds ran
    rcases List.mem_cons.1 member with rfl | member
    · have known := (find?_eq_some (load_ok (formed holds) ran).2.2.1).1
      have inside := innerWalk.keeps keptToo.load (fun id _ => keptToo.step id) (makes loaded known)
      exact outerWalk.keeps keptToo.load (fun id _ => keptToo.step id) inside
    rcases List.mem_append.1 member with member | member
    · exact outerWalk.keeps keptToo.load (fun id _ => keptToo.step id)
        (inner member (kept.step _ loaded))
    · exact outer member (innerWalk.keeps kept.load (fun id _ => kept.step id) (kept.step _ loaded))

theorem supplied (walk : Walk step entered names set visited entered' later)
    (quiet : Quiet base step) (supplied : Supplied base set) : Supplied set later := by
  refine (walk.keeps (P := fun u => Supplied base u ∧ Supplied set u) ?_ ?_ ⟨supplied,
    .refl supplied.wellFormed⟩).2
  · intro name found u v both ran
    have grown := (load_ok both.1.wellFormed ran).1
    exact ⟨both.1.trans grown, both.2.trans grown⟩
  · intro id _ u both
    have grown := quiet id u both.1
    exact ⟨both.1.trans grown, both.2.trans grown⟩

/-- A name that has been entered is missing, or its class has been visited and the names of its
supertypes have been entered. -/
def Settled (set : ClassSet) (visited : List ClassId) (entered : List String)
    (name : String) : Prop :=
  (∃ id ∈ visited, set.find? name = some id ∧ (set.classAt id).supertypes ⊆ entered) ∨
    set.find? name = none ∧ set.onClasspath? name = .ok none ∧ isPlatformClass name = true

theorem Settled.mono {visited' : List ClassId} {name : String}
    (settled : Settled set visited entered name) (supplied : Supplied set later)
    (more : visited ⊆ visited') (moreNames : entered ⊆ entered') :
    Settled later visited' entered' name := by
  rcases settled with ⟨id, member, found, inside⟩ | ⟨unknown, missing, platform⟩
  · refine .inl ⟨id, more member, supplied.find? name id found, ?_⟩
    rw [supplied.supertypes (find?_eq_some found).1]
    exact fun _ is => moreNames (inside is)
  · refine .inr ⟨?_, onClasspath?_congr supplied.classpath name ▸ missing, platform⟩
    refine Option.not_isSome_iff_eq_none.1 fun found => ?_
    rcases supplied.provided name found with known | provided
    · rw [unknown] at known
      cases known
    · rw [provided?_of_onClasspath? missing] at provided
      cases provided

theorem closed (walk : Walk step entered names set visited entered' later) (quiet : Quiet base step)
    (grown : Supplied base set) : entered ⊆ entered' ∧ names ⊆ entered' ∧
      ∀ name ∈ entered', name ∈ entered ∨ Settled later visited entered' name := by
  induction walk with
  | done => exact ⟨fun _ h => h, List.nil_subset _, fun _ h => .inl h⟩
  | again known _ ih =>
    obtain ⟨kept, all, settled⟩ := ih grown
    exact ⟨kept, List.cons_subset.2 ⟨kept known, all⟩, settled⟩
  | @missing name names entered entered' set later visited ran platform walk ih =>
    obtain ⟨kept, all, settled⟩ := ih grown
    obtain ⟨kept', more⟩ := List.cons_subset.1 kept
    refine ⟨more, List.cons_subset.2 ⟨kept', all⟩, fun n member => ?_⟩
    rcases settled n member with known | settled
    · rcases List.mem_cons.1 known with rfl | known
      · obtain ⟨-, -, unknown, absent⟩ := load_ok grown.wellFormed ran
        exact .inr (Settled.mono (.inr ⟨unknown, (absent rfl).2, platform⟩)
          (walk.supplied quiet grown) (List.nil_subset _) (List.nil_subset _))
      · exact .inl known
    · exact .inr settled
  | @enter name names entered between entered' set loaded middle later id inner outer fresh ran
    innerWalk outerWalk
      ihInner ihOuter =>
    obtain ⟨loads, -, found, -⟩ := load_ok grown.wellFormed ran
    have stepped := quiet id loaded (grown.trans loads)
    have atClass := (grown.trans loads).trans stepped
    have inside := innerWalk.supplied quiet atClass
    have outside := outerWalk.supplied quiet (atClass.trans inside)
    obtain ⟨keptInner, allInner, settledInner⟩ := ihInner atClass
    obtain ⟨keptOuter, allOuter, settledOuter⟩ := ihOuter (atClass.trans inside)
    obtain ⟨entersName, more⟩ := List.cons_subset.1 keptInner
    refine ⟨fun _ h => keptOuter (more h), List.cons_subset.2 ⟨keptOuter entersName, allOuter⟩,
      fun n member => ?_⟩
    rcases settledOuter n member with known | settled
    · rcases settledInner n known with known | settled
      · rcases List.mem_cons.1 known with rfl | known
        · have settled : Settled (step id loaded) [id] between n :=
            .inl ⟨id, List.mem_singleton_self id, stepped.find? n id found, allInner⟩
          exact .inr (settled.mono (inside.trans outside) (by simp) keptOuter)
        · exact .inl known
      · exact .inr (settled.mono outside (fun _ h => .tail _ (List.mem_append_left _ h)) keptOuter)
    · exact .inr (settled.mono (.refl outside.wellFormed)
        (fun _ h => .tail _ (List.mem_append_right _ h)) fun _ h => h)

theorem sound (walk : Walk step entered names set visited entered' later) (quiet : Quiet base step)
    (grown : Supplied base set) :
    ∀ id ∈ visited, ∃ name, later.Reached entered names name ∧ later.find? name = some id := by
  induction walk with
  | done => exact fun _ h => nomatch h
  | again _ _ ih =>
    intro id member
    obtain ⟨n, reached, found⟩ := ih grown id member
    exact ⟨n, reached.mono (fun _ h => h) fun _ start free => .named (.tail _ start) free, found⟩
  | missing _ _ _ ih =>
    intro id member
    obtain ⟨n, reached, found⟩ := ih grown id member
    refine ⟨n, reached.mono (List.subset_cons_self _ _) fun _ start free => .named (.tail _ start)
      fun h => ?_, found⟩
    exact free (.tail _ h)
  | @enter name names entered between entered' set loaded middle later id inner outer fresh ran
    innerWalk outerWalk
      ihInner ihOuter =>
    obtain ⟨loads, -, found, -⟩ := load_ok grown.wellFormed ran
    have stepped := quiet id loaded (grown.trans loads)
    have atClass := (grown.trans loads).trans stepped
    have inside := innerWalk.supplied quiet atClass
    have outside := outerWalk.supplied quiet (atClass.trans inside)
    have foundLater := outside.find? _ _ (inside.find? _ _ (stepped.find? _ _ found))
    have head : later.Reached entered (name :: names) name := .named List.mem_cons_self fresh
    have kept := (innerWalk.closed quiet atClass).1
    intro other member
    rcases List.mem_cons.1 member with rfl | member
    · exact ⟨name, head, foundLater⟩
    rcases List.mem_append.1 member with member | member
    · obtain ⟨n, reached, found'⟩ := ihInner atClass other member
      refine ⟨n, (outside.reached reached).mono (List.subset_cons_self _ _)
        fun start isSupertype free => ?_, outside.find? _ _ found'⟩
      rw [← (inside.trans outside).supertypes
        (find?_eq_some (stepped.find? _ _ found)).1] at isSupertype
      exact .above head foundLater isSupertype fun h => free (.tail _ h)
    · obtain ⟨n, reached, found'⟩ := ihOuter (atClass.trans inside) other member
      refine ⟨n, reached.mono (fun _ h => kept (.tail _ h))
        fun _ start free => .named (.tail _ start) fun h => ?_, found'⟩
      exact free (kept (.tail _ h))

/-- A walk enters all names that can be reached, and they resolve. -/
theorem entered_of_reached (walk : Walk step entered names set visited entered' later)
    (quiet : Quiet base step) (grown : Supplied base set) {name : String}
    (reached : later.Reached entered names name) :
    name ∈ entered' ∧ Settled later visited entered' name := by
  obtain ⟨-, all, settled⟩ := walk.closed quiet grown
  have known (name : String) (member : name ∈ entered') (free : name ∉ entered) :
      Settled later visited entered' name :=
    (settled name member).resolve_left free
  induction reached with
  | named member free => exact ⟨all member, known _ (all member) free⟩
  | above _ found supertype free ih =>
    rcases ih.2 with ⟨id, -, found', inside⟩ | ⟨unknown, -⟩
    · obtain rfl := Option.some.inj (found'.symm.trans found)
      exact ⟨inside supertype, known _ (inside supertype) free⟩
    · rw [unknown] at found
      cases found

theorem resolves (walk : Walk step entered names set visited entered' later)
    (quiet : Quiet base step) (grown : Supplied base set) (name : String)
    (reached : later.Reached entered names name) : later.Resolves name := by
  rcases (walk.entered_of_reached quiet grown reached).2 with ⟨id, -, found, -⟩ | ⟨-, missing⟩
  · exact .inl (by rw [found]; rfl)
  · exact .inr missing

/-- A walk visits the classes whose names can be reached. -/
theorem mem_visited (walk : Walk step entered names set visited entered' later)
    (quiet : Quiet base step) (grown : Supplied base set) (id : ClassId) :
    id ∈ visited ↔ ∃ name, later.Reached entered names name ∧ later.find? name = some id := by
  refine ⟨walk.sound quiet grown id, fun ⟨name, reached, found⟩ => ?_⟩
  rcases (walk.entered_of_reached quiet grown reached).2 with
    ⟨id', member, found', -⟩ | ⟨unknown, -⟩
  · exact Option.some.inj (found'.symm.trans found) ▸ member
  · rw [unknown] at found
    cases found

end Walk

/-- The names under which there can ever be a class. -/
def nameable (set : ClassSet) : Finset String :=
  (set.classes.toList.map (·.name) ++ set.classpath.map Prod.fst).toFinset

theorem card_nameable_lt (set : ClassSet) : set.nameable.card < set.depthBound := by
  have bound := (set.classes.toList.map (·.name) ++ set.classpath.map Prod.fst).toFinset_card_le
  simp only [List.length_append, List.length_map, Array.length_toList] at bound
  exact Nat.lt_succ_of_le bound

/-- Only names that a class set has classes or files for are known. -/
def Within (base set : ClassSet) : Prop :=
  set.classpath = base.classpath ∧ ∀ name, (set.find? name).isSome → name ∈ base.nameable

theorem mem_nameable_of_known {name : String} (known : (set.find? name).isSome) :
    name ∈ set.nameable := by
  rw [nameable, List.mem_toFinset, List.mem_append, List.mem_map]
  obtain ⟨id, found⟩ := Option.isSome_iff_exists.1 known
  obtain ⟨inside, isNamed⟩ := find?_eq_some found
  refine .inl ⟨set.classAt id, ?_, isNamed⟩
  rw [ClassSet.classAt, Array.getElem?_eq_getElem inside]
  exact Array.getElem_mem_toList inside

theorem mem_nameable_of_provided {name : String} (provided : (set.provided? name).isSome) :
    name ∈ set.nameable := by
  rw [nameable, List.mem_toFinset, List.mem_append, List.mem_map, List.mem_map]
  obtain ⟨file, provided⟩ := exists_of_provided? provided
  obtain ⟨bytes, listed, -⟩ := exists_lookup_of_onClasspath? provided
  obtain ⟨before, after, split, -⟩ := List.lookup_eq_some_iff.1 listed
  exact .inr ⟨(name, .content bytes), by rw [split]; simp, rfl⟩

theorem Within.refl (set : ClassSet) : Within set set := ⟨rfl, fun _ => mem_nameable_of_known⟩

theorem Supplied.within (supplied : Supplied base set) : Within base set := by
  refine ⟨supplied.classpath, fun name known => ?_⟩
  rcases supplied.provided name known with known | provided
  · exact mem_nameable_of_known known
  · exact mem_nameable_of_provided provided

theorem loadAncestor_ok {origin : ClassId} {name : String} {found : Option ClassId}
    (ran : (loadAncestor origin name).run set = .ok found later) :
    (load name).run set = .ok found later ∧ (found = none → isPlatformClass name = true) := by
  obtain ⟨first, mid, loads, rest⟩ := run_bind_ok ran
  cases first with
  | some id =>
    cases rest
    exact ⟨loads, nofun⟩
  | none =>
    dsimp only at rest
    split at rest
    · rename_i platform
      cases rest
      exact ⟨loads, fun _ => platform⟩
    · cases rest

/-- A class is known already, cannot be had, or comes from the classpath. -/
theorem load_cases (set : ClassSet) (name : String) :
    (load name).run set = .ok (set.find? name) set ∨ (∃ e, (load name).run set = .error e set) ∨
      ∃ later, set.find? name = none ∧ (set.provided? name).isSome ∧ Appended set name true later ∧
        (load name).run set = .ok (some set.nextClass) later := by
  rw [load]
  cases known : set.find? name with
  | some id => exact .inl (by simp [known])
  | none =>
    match provided : set.onClasspath? name with
    | .error file => exact .inr (.inl ⟨.unreadable file, by simp [known, provided]⟩)
    | .ok none => exact .inl (by simp [known, provided])
    | .ok (some file) =>
      by_cases same : file.header.name = name
      · cases inserted : set.insert? file none true with
        | none => exact .inr (.inl ⟨.duplicate name, by simp [known, provided, same, inserted]⟩)
        | some later =>
          have listed : (set.provided? name).isSome := by
            rw [provided?_of_onClasspath? provided, Option.isSome_some]
          refine .inr (.inr ⟨later, rfl, listed, same ▸ insert?_appends inserted, ?_⟩)
          simp only [EStateM.run_bind, EStateM.run_get, known, provided, same, inserted,
            if_true, run_set, EStateM.run_pure]
      · exact .inr (.inl ⟨.misfiled name file.header.name, by simp [known, provided, same]⟩)

theorem load_found {name : String} {id : ClassId}
    (ran : (load name).run set = .ok (some id) later) :
    later.find? name = some id := by
  rcases load_cases set name with known | ⟨e, failed⟩ | ⟨added, unknown, -, appended, loaded⟩
  · rw [known] at ran
    obtain ⟨isFound, rfl⟩ := EStateM.Result.ok.inj ran
    exact isFound
  · rw [failed] at ran
    cases ran
  · rw [loaded] at ran
    cases ran
    rw [appended.find?_eq, unknown, if_pos rfl, Option.none_or]

/-- The steps of a walk that may fail, with the names that have been entered, the classes that are
visited and the result. -/
inductive Walks (step : ClassId → ClassSet → ClassSet) (origin : ClassId) :
    List String → List String → ClassSet →
    List ClassId → EStateM.Result ClassSetError ClassSet (List String) → Prop where
  | done {entered : List String} {set : ClassSet} :
      Walks step origin entered [] set [] (.ok entered set)
  | again {name : String} {names entered : List String} {set : ClassSet} {visited : List ClassId}
      {result : EStateM.Result ClassSetError ClassSet (List String)} : name ∈ entered →
      Walks step origin entered names set visited result →
        Walks step origin entered (name :: names) set visited result
  | fails {name : String} {names entered : List String} {set later : ClassSet} {e : ClassSetError} :
      name ∉ entered → (loadAncestor origin name).run set = .error e later →
      Walks step origin entered (name :: names) set [] (.error e later)
  | missing {name : String} {names entered : List String} {set later : ClassSet}
      {visited : List ClassId}
      {result : EStateM.Result ClassSetError ClassSet (List String)} : name ∉ entered →
      (loadAncestor origin name).run set = .ok none later →
      Walks step origin (name :: entered) names later visited result →
      Walks step origin entered (name :: names) set visited result
  | stops {name : String} {names entered : List String} {set loaded later : ClassSet} {id : ClassId}
      {visited : List ClassId} {e : ClassSetError} : name ∉ entered →
      (loadAncestor origin name).run set = .ok (some id) loaded →
      Walks step origin (name :: entered) ((step id loaded).classAt id).supertypes
        (step id loaded) visited
        (.error e later) →
      Walks step origin entered (name :: names) set (id :: visited) (.error e later)
  | enter {name : String} {names entered between : List String} {set loaded middle : ClassSet}
      {id : ClassId}
      {inner outer : List ClassId} {result : EStateM.Result ClassSetError ClassSet (List String)} :
        name ∉ entered →
      (loadAncestor origin name).run set = .ok (some id) loaded →
      Walks step origin (name :: entered) ((step id loaded).classAt id).supertypes
        (step id loaded) inner
        (.ok between middle) →
      Walks step origin between names middle outer result →
      Walks step origin entered (name :: names) set (id :: inner ++ outer) result

namespace Walks

variable {step : ClassId → ClassSet → ClassSet} {origin : ClassId} {entered names : List String}
  {visited : List ClassId} {result : EStateM.Result ClassSetError ClassSet (List String)}

/-- A walk that succeeds keeps what loading and the steps keep, and forgets no name. -/
theorem keeps {P : ClassSet → Prop} (walks : Walks step origin entered names set visited result)
    (kept : Kept step P) (holds : P set) : ∀ entered' later, result = .ok entered' later → P later ∧
      entered ⊆ entered' := by
  induction walks with
  | done =>
    intro entered' later is
    cases is
    exact ⟨holds, fun _ h => h⟩
  | again _ _ ih => exact ih holds
  | fails | stops => exact nofun
  | missing _ loads _ ih =>
    intro entered' later is
    obtain ⟨holds', more⟩ := ih (kept.load holds (loadAncestor_ok loads).1) entered' later is
    exact ⟨holds', fun _ h => more (.tail _ h)⟩
  | enter _ loads _ _ inner outer =>
    intro entered' later is
    obtain ⟨middle, more⟩ := inner (kept.step _ (kept.load holds (loadAncestor_ok loads).1)) _ _ rfl
    obtain ⟨holds', more'⟩ := outer middle entered' later is
    exact ⟨holds', fun _ h => more' (more (.tail _ h))⟩

/-- A walk that succeeds has left out only classes of the platform. -/
theorem walk (walks : Walks step origin entered names set visited result) (quiet : Quiet base step)
    (grown : Supplied base set) : ∀ entered' later, result = .ok entered' later →
      Walk step entered names set visited entered' later := by
  induction walks with
  | done =>
    intro entered' later is
    cases is
    exact .done
  | again known _ ih => exact fun entered' later is => .again known (ih grown entered' later is)
  | fails | stops => exact nofun
  | missing fresh loads _ ih =>
    intro entered' later is
    obtain ⟨loads, platform⟩ := loadAncestor_ok loads
    obtain ⟨rfl, -⟩ := (load_ok grown.wellFormed loads).2.2.2 rfl
    exact .missing loads (platform rfl) (ih grown entered' later is)
  | @enter name names entered between set loaded middle id inner outer result fresh loads
    _ _ ihInner ihOuter =>
    intro entered' later is
    obtain ⟨loads, -⟩ := loadAncestor_ok loads
    have loading := grown.trans (load_ok grown.wellFormed loads).1
    have atClass := loading.trans (quiet id loaded loading)
    have innerWalk := ihInner atClass between middle rfl
    exact .enter fresh loads innerWalk
      (ihOuter (atClass.trans (innerWalk.supplied quiet atClass)) entered' later is)

end Walks

theorem card_names_le (names : Finset String) {entered entered' : List String}
    (more : entered ⊆ entered') :
    (names \ entered'.toFinset).card ≤ (names \ entered.toFinset).card :=
  Finset.card_le_card (Finset.sdiff_subset_sdiff (fun _ h => h) fun _ h =>
    List.mem_toFinset.2 (more (List.mem_toFinset.1 h)))

theorem card_names_lt {names : Finset String} {entered : List String} {name : String}
    (nameable : name ∈ names) (fresh : name ∉ entered) :
    (names \ (name :: entered).toFinset).card < (names \ entered.toFinset).card := by
  refine Finset.card_lt_card ⟨Finset.sdiff_subset_sdiff (fun _ h => h) (by simp), fun back => ?_⟩
  have inside := back (Finset.mem_sdiff.2 ⟨nameable, by simpa using fresh⟩)
  simp at inside

/-- A walk takes the steps of the relation, if its fuel exceeds the number of names that can still
be entered. -/
theorem walks_of_run {step : ClassId → ClassSet → ClassSet} {P : ClassSet → Prop}
    (kept : Kept step P) (within : ∀ {u}, P u → Within base u) (origin : ClassId) :
    ∀ (fuel : Nat) (names entered : List String) (set : ClassSet), P set →
      (base.nameable \ entered.toFinset).card < fuel →
      ∃ visited, Walks step origin entered names set visited
        ((forAncestors step origin fuel entered names).run set) := by
  intro fuel
  induction fuel with
  | zero => exact fun _ _ _ _ enough => absurd enough (Nat.not_lt_zero _)
  | succ fuel ihFuel =>
    intro names
    induction names with
    | nil => exact fun entered set _ _ => ⟨[], .done⟩
    | cons name names ihNames =>
      intro entered set holds enough
      rw [forAncestors, List.foldlM_cons, EStateM.run_bind]
      by_cases known : name ∈ entered
      · obtain ⟨visited, walks⟩ := ihNames entered set holds enough
        rw [if_pos (List.contains_iff_mem.2 known)]
        exact ⟨visited, .again known walks⟩
      rw [if_neg (by simpa using known), EStateM.run_bind]
      cases loads : (loadAncestor origin name).run set with
      | error e later => exact ⟨[], .fails known loads⟩
      | ok found loaded =>
        have loading := kept.load holds (loadAncestor_ok loads).1
        cases found with
        | none =>
          have fewer := card_names_le base.nameable (List.subset_cons_self name entered)
          obtain ⟨visited, walks⟩ := ihNames (name :: entered) loaded loading (by omega)
          exact ⟨visited, .missing known loads walks⟩
        | some id =>
          have nameable := (within loading).2 name
            (by rw [load_found (loadAncestor_ok loads).1]; rfl)
          have fewer := card_names_lt nameable known
          have stepped := kept.step id loading
          obtain ⟨inner, innerWalks⟩ :=
            ihFuel ((step id loaded).classAt id).supertypes
              (name :: entered) (step id loaded) stepped (by omega)
          simp only [EStateM.run_bind, EStateM.run_modify, EStateM.run_get]
          cases ran : (forAncestors step origin fuel (name :: entered)
              ((step id loaded).classAt id).supertypes).run (step id loaded) with
          | error e later =>
            rw [ran] at innerWalks
            exact ⟨id :: inner, .stops known loads innerWalks⟩
          | ok between middle =>
            rw [ran] at innerWalks
            obtain ⟨middleHolds, more⟩ := innerWalks.keeps kept stepped between middle rfl
            have fewer' := card_names_le base.nameable more
            obtain ⟨outer, outerWalks⟩ := ihNames between middle middleHolds (by omega)
            exact ⟨id :: inner ++ outer, .enter known loads innerWalks outerWalks⟩

/-- A walk that succeeds takes the steps of the relation, if its fuel exceeds the number of names
that can still be entered. -/
theorem walk_of_run {step : ClassId → ClassSet → ClassSet} (quiet : Quiet base step)
    (origin : ClassId) (fuel : Nat) (names entered entered' : List String) (set later : ClassSet)
    (grown : Supplied base set) (enough : (base.nameable \ entered.toFinset).card < fuel)
    (ran : (forAncestors step origin fuel entered names).run set = .ok entered' later) :
    ∃ visited, Walk step entered names set visited entered' later := by
  have kept : Kept step (Supplied base) :=
    ⟨fun grown ran => grown.trans (load_ok grown.wellFormed ran).1,
      fun id _ grown => grown.trans (quiet id _ grown)⟩
  obtain ⟨visited, walks⟩ :=
    walks_of_run kept (fun grown => grown.within) origin fuel names entered set grown enough
  exact ⟨visited, walks.walk quiet grown entered' later ran⟩

theorem load_resolved {name : String} (resolves : set.Resolves name) :
    (load name).run set = .ok (set.find? name) set := by
  rw [load]
  cases known : set.find? name with
  | some id => simp [known]
  | none =>
    rcases resolves with found | ⟨missing, -⟩
    · rw [known] at found
      cases found
    · simp [known, missing]

theorem loadAncestor_resolved (origin : ClassId) {name : String} (resolves : set.Resolves name) :
    (loadAncestor origin name).run set = .ok (set.find? name) set := by
  rw [loadAncestor, EStateM.run_bind, load_resolved resolves]
  cases known : set.find? name with
  | some id => rfl
  | none =>
    rcases resolves with found | ⟨-, platform⟩
    · rw [known] at found
      cases found
    · simp [platform]

theorem SameFrame.find? (same : SameFrame set later) (name : String) :
    later.find? name = set.find? name :=
  find?_congr same.classCount (fun id => congrArg (·.name) (same.classAt id)) name

theorem SameFrame.resolves (same : SameFrame set later) {name : String}
    (resolves : set.Resolves name) :
    later.Resolves name := by
  rwa [Resolves, same.find?, onClasspath?_congr same.classpath]

theorem SameFrame.supertypes (same : SameFrame set later) (id : ClassId) :
    (later.classAt id).supertypes = (set.classAt id).supertypes := by
  have supertypes := congrArg (·.supertypes) (same.classAt id)
  exact supertypes

/-- A walk succeeds where all names that can be reached resolve, and it keeps what the steps at
their classes keep. -/
theorem walk_succeeds {step : ClassId → ClassSet → ClassSet} {P : ClassSet → Prop}
    (barred starts : List String) (frame : ∀ u, P u → SameFrame set u)
    (resolves : ∀ name, set.Reached barred starts name → set.Resolves name)
    (each : ∀ name id, set.Reached barred starts name → set.find? name = some id → ∀ u, P u →
      P (step id u)) (origin : ClassId) :
        ∀ (fuel : Nat) (names entered : List String) (u : ClassSet), P u → barred ⊆ entered →
      (∀ name ∈ names, name ∉ barred → set.Reached barred starts name) →
      ∃ entered' v, (forAncestors step origin fuel entered names).run u = .ok entered' v ∧ P v ∧
        entered ⊆ entered' := by
  intro fuel
  induction fuel with
  | zero => exact fun _ entered u holds _ _ => ⟨entered, u, rfl, holds, fun _ h => h⟩
  | succ fuel ihFuel =>
    intro names
    induction names with
    | nil => exact fun entered u holds _ _ => ⟨entered, u, rfl, holds, fun _ h => h⟩
    | cons name names ihNames =>
      intro entered u holds isBarred reached
      have others := fun name member => reached name (.tail _ member)
      rw [forAncestors, List.foldlM_cons]
      by_cases known : name ∈ entered
      · obtain ⟨entered', v, ran, after, kept⟩ := ihNames entered u holds isBarred others
        refine ⟨entered', v, ?_, after, kept⟩
        rw [if_pos (List.contains_iff_mem.2 known)]
        exact ran
      have here := reached name List.mem_cons_self fun h => known (isBarred h)
      have loads := loadAncestor_resolved origin ((frame u holds).resolves (resolves name here))
      rw [(frame u holds).find?] at loads
      cases found : set.find? name with
      | none =>
        obtain ⟨entered', v, ran, after, kept⟩ := ihNames (name :: entered) u holds
          (fun _ h => .tail _ (isBarred h)) others
        refine ⟨entered', v, ?_, after, fun _ h => kept (.tail _ h)⟩
        refine (run_bind_of_ok (x := name :: entered) (t := u) ?_).trans ran
        rw [if_neg (by simpa using known), run_bind_of_ok loads, found]
        rfl
      | some id =>
        have stepped := each name id here found u holds
        obtain ⟨between, w, inner, middle, keptInner⟩ :=
          ihFuel ((step id u).classAt id).supertypes (name :: entered)
          (step id u) stepped (fun _ h => .tail _ (isBarred h)) fun supertype member free => by
            rw [(frame _ stepped).supertypes] at member
            exact .above here found member free
        obtain ⟨entered', v, outer, after, keptOuter⟩ := ihNames between w middle
          (fun _ h => keptInner (.tail _ (isBarred h))) others
        refine ⟨entered', v, ?_, after, fun _ h => keptOuter (keptInner (.tail _ h))⟩
        refine (run_bind_of_ok ?_).trans outer
        rw [if_neg (by simpa using known), run_bind_of_ok loads, found]
        exact inner

end JvmPatch.ClassSet
