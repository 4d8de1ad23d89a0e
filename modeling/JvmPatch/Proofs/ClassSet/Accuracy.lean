import JvmPatch.Proofs.ClassSet.Owners

/-! Taking classes in and working out inheritance keep the owners of members accurate. A class
becomes an owner of what it declares and of what its ancestors show, and the ancestors are those by
its present supertypes. -/

set_option autoImplicit false

namespace JvmPatch.ClassSet

variable {base set later latest : ClassSet}

theorem load_rule {P : ClassSet → Prop}
    (insert : ∀ set file later, P set → set.onClasspath? file.header.name = .ok (some file) →
    set.insert? file none true = some later → P later) (name : String) :
      Preserves P (load name) := by
  refine .ofGet fun set holds => ?_
  cases set.find? name with
  | some id => exact holds
  | none =>
    dsimp only
    match provided : set.onClasspath? name with
    | .error _ | .ok none => exact holds
    | .ok (some file) =>
      dsimp only
      split
      · rename_i same
        cases inserted : set.insert? file none true with
        | none => exact holds
        | some later => exact insert set file later holds (same ▸ provided) inserted
      · exact holds

/-- What taking a class in and making a stub for an unknown name keep. -/
theorem loadMentioned_rule {P : ClassSet → Prop} (insert : ∀ set file later, P set →
    set.onClasspath? file.header.name = .ok (some file) →
      set.insert? file none true = some later → P later)
    (stub : ∀ set name, P set → set.find? name = none → P (set.addClass (.stub name))) :
    Preserves P loadMentioned := by
  have one (name : String) : Preserves P (loadOrStub name) := by
    refine .ofGet fun set holds => ?_
    split
    · exact holds
    rename_i unknown
    have loads := preserves_iff.1 (load_rule insert name) set holds
    rw [leftBy] at loads ⊢
    rw [EStateM.run_bind]
    rcases load_cases set name with known | ⟨e, failed⟩ | ⟨later, -, -, -, loaded⟩
    · rw [known, Option.not_isSome_iff_eq_none.1 unknown]
      exact stub set name holds (Option.not_isSome_iff_eq_none.1 unknown)
    · rw [failed]
      exact holds
    · rw [loaded] at loads ⊢
      exact loads
  have level (names : List String) : Preserves P (loadLevel names) := by
    induction names with
    | nil => exact .pure _ _
    | cons name names ih => exact (one name).bind fun _ => ih.bind fun _ => .pure _ _
  have levels (fuel : Nat) (names : List String) : Preserves P (loadLevels fuel names) := by
    induction fuel generalizing names with
    | zero => exact .pure _ _
    | succ fuel ih => exact (level names).bind fun next => ih next
  exact .ofGet fun set holds => preserves_iff.1 (levels _ _) set holds

namespace Accurate

theorem empty (classpath : Classpath) : Accurate { classpath := classpath } := by
  have nothing (cls : ClassId) : ({ classpath := classpath } : ClassSet).classAt cls = default :=
    classAt_of_unknown nofun
  have formed := wellFormed_empty classpath
  constructor
  case wellFormed => exact formed
  case standing =>
    intro id m member
    rw [nothing] at member
    cases member
  case shown =>
    intro id m member
    rw [nothing] at member
    cases member
  case methods => exact fun m stands => absurd (formed.methods _ m stands).1 nofun
  case fields => exact fun f stands => absurd (formed.fields _ f stands).1 nofun

theorem insert? {file : ClassFile} {source : Option Bytes} {hidden : Bool} (accurate : set.Accurate)
    (inserted : set.insert? file source hidden = some later) : later.Accurate := by
  have appended := insert?_appends inserted
  have found (name : String) (id : ClassId) (known : set.find? name = some id) :
      later.find? name = some id := by
    rw [appended.find?_eq, known, Option.some_or]
  exact accurate.carried (evolves_insert? inserted)
    (appended.untouched.retains accurate.wellFormed found)
    (.insert? accurate inserted)

theorem addStub (accurate : set.Accurate) (name : String) :
    (set.addClass (.stub name)).Accurate := by
  have appended : Appended set name true (set.addClass (.stub name)) :=
    ⟨.stub name, #[], #[], rfl, rfl, by simp [addClass]⟩
  have found (sought : String) (id : ClassId) (known : set.find? sought = some id) :
      (set.addClass (.stub name)).find? sought = some id := by
    rw [appended.find?_eq, known, Option.some_or]
  exact accurate.carried (.addClass .everything set rfl rfl rfl)
    (appended.untouched.retains accurate.wellFormed found)
    (.addClass accurate.standing rfl rfl rfl)

theorem loads (name : String) : Preserves Accurate (load name) :=
  load_rule (fun _ _ _ accurate _ inserted => accurate.insert? inserted) name

theorem loadsMentioned : Preserves Accurate loadMentioned :=
  loadMentioned_rule (fun _ _ _ accurate _ inserted => accurate.insert? inserted)
    fun _ name accurate _ => accurate.addStub name

end Accurate

/-- What has the same frame offers the same. -/
theorem SameFrame.retains (same : SameFrame set later) : Retains set later := by
  have climbs : Climbs set later :=
    ⟨fun name id found => (same.find? name).trans found,
      fun id => same.supertypes id ▸ fun _ member => member⟩
  refine climbs.retains (fun id m member => ?_) fun id f member => ?_
  · have methods := congrArg (·.methods) (same.classAt id)
    have signature := congrArg (fun e => (e.name, e.desc)) (same.methodAt m)
    exact ⟨methods ▸ member, signature⟩
  · have fields := congrArg (·.fields) (same.classAt id)
    have signature := congrArg (fun e => (e.name, e.desc)) (same.fieldAt f)
    exact ⟨fields ▸ member, signature⟩

theorem SameFrame.stands_iff (same : SameFrame set later) (m : MethodId) : later.Stands m ↔
    set.Stands m := by
  have declaredBy : (later.methodAt m).declaredBy = (set.methodAt m).declaredBy :=
    congrArg (·.declaredBy) (same.methodAt m)
  have methods : (later.classAt (set.methodAt m).declaredBy).methods =
      (set.classAt (set.methodAt m).declaredBy).methods :=
    congrArg (·.methods) (same.classAt _)
  rw [Stands, declaredBy, methods, Stands]

theorem SameFrame.standsField_iff (same : SameFrame set later) (f : FieldId) : later.StandsField f ↔
    set.StandsField f := by
  have declaredBy : (later.fieldAt f).declaredBy = (set.fieldAt f).declaredBy :=
    congrArg (·.declaredBy) (same.fieldAt f)
  have fields : (later.classAt (set.fieldAt f).declaredBy).fields =
      (set.classAt (set.fieldAt f).declaredBy).fields :=
    congrArg (·.fields) (same.classAt _)
  rw [StandsField, declaredBy, fields, StandsField]

namespace Accurate

/-- Classes may show other methods, and members may get other owners, of which the same is true. -/
theorem reframed (same : SameFrame set later) (formed : later.WellFormed)
    (views : ∀ id, ∀ m ∈ (later.classAt id).view, set.Stands m ∧ set.Offers id (set.signature m))
    (owners : ∀ m, set.Stands m → ∀ o ∈ (later.methodAt m).owners, set.Offers o (set.signature m))
    (fieldOwners : ∀ f, set.StandsField f → ∀ o ∈ (later.fieldAt f).owners,
      set.OffersField o (set.fieldSignature f)) :
    later.Accurate := by
  have signature (m : MethodId) : later.signature m = set.signature m :=
    congrArg (fun e => (e.name, e.desc)) (same.methodAt m)
  have fieldSignature (f : FieldId) : later.fieldSignature f = set.fieldSignature f :=
    congrArg (fun e => (e.name, e.desc)) (same.fieldAt f)
  constructor
  case wellFormed => exact formed
  case standing => exact fun id m member => (same.stands_iff m).2 (views id m member).1
  case shown =>
    exact fun id m member => signature m ▸ same.retains.methods id _ (views id m member).2
  case methods =>
    intro m stands o owner
    rw [signature]
    exact same.retains.methods o _ (owners m ((same.stands_iff m).1 stands) o owner)
  case fields =>
    intro f stands o owner
    rw [fieldSignature]
    exact same.retains.fields o _ (fieldOwners f ((same.standsField_iff f).1 stands) o owner)

/-- A method that is shown instead of another gets its owners, which have a member of the same name
and descriptor. -/
theorem showOverride {m : MethodId} (accurate : set.Accurate) (stands : set.Stands m)
    (inheritable : (set.methodAt m).access.isInheritable) (id : ClassId) :
    (showOverride m id set).Accurate := by
  have same := sameFrame_showOverride inheritable id
  have formed := accurate.wellFormed
  have later := (evolves_showOverride (formed.methods _ m stands).1 id).wellFormed formed
  obtain ⟨unchanged, -⟩ | ⟨place, replaced, found, shows, -, changed⟩ := showOverride_cases m id set
  · exact unchanged.symm ▸ accurate
  have member := List.mem_of_getElem? shows
  have alike : set.signature replaced = set.signature m :=
    congrArg (·.1) (kind_of_place? found shows)
  refine reframed same later (fun cls x isShown => ?_) (fun x stood o owner => ?_)
    fun f stood o owner => ?_
  · obtain ⟨index, inside, rfl⟩ := List.mem_iff_getElem.1 isShown
    have isAt := List.getElem?_eq_getElem inside
    rw [view_showOverride] at isAt
    split at isAt
    · rename_i here
      obtain rfl := here.1
      rw [← Option.some.inj isAt]
      exact ⟨stands, alike ▸ accurate.shown cls replaced member⟩
    · have old := List.mem_of_getElem? isAt
      exact ⟨accurate.standing cls _ old, accurate.shown cls _ old⟩
  · rw [changed] at owner
    by_cases isShown : x = m
    · subst isShown
      change o ∈ ((set.modifyMethod x _).methodAt x).owners at owner
      rw [set.methodAt_modifyMethod_self _ (formed.methods _ x stands).1,
        mem_foldl_insertAscending] at owner
      rcases owner with taken | own
      · exact alike ▸ accurate.methods replaced (accurate.standing id replaced member) o taken
      · exact accurate.methods x stood o own
    · change o ∈ ((set.modifyMethod m _).methodAt x).owners at owner
      rw [set.methodAt_modifyMethod_of_ne _ isShown] at owner
      exact accurate.methods x stood o owner
  · rw [changed] at owner
    exact accurate.fields f stood o owner

/-- A class becomes an owner of what it inherits. -/
theorem inheritMembers {heir id : ClassId} (accurate : set.Accurate) (upward : set.Upward heir id) :
    (inheritMembers heir id set).Accurate := by
  have same := sameFrame_inheritMembers heir id set
  have formed := accurate.wellFormed
  have later := (evolves_inheritMembers heir id set).wellFormed formed
  have classes (cls : ClassId) :
      (ClassSet.inheritMembers heir id set).classAt cls = set.classAt cls := by
    rw [classAt, classes_inheritMembers, classAt]
  refine reframed same later (fun cls m shown => ?_) (fun m stands o owner => ?_)
    fun f stands o owner => ?_
  · rw [classes] at shown
    exact ⟨accurate.standing cls m shown, accurate.shown cls m shown⟩
  · rcases (methodOwners_inheritMembers heir id set m o).1 owner with old | ⟨rfl, inherited⟩
    · exact accurate.methods m stands o old
    · exact (accurate.shown id m (List.mem_filter.1 inherited).1).upward upward
  · rcases (fieldOwners_inheritMembers heir id set f o).1 owner with old | ⟨rfl, inherited⟩
    · exact accurate.fields f stands o old
    · have declared := (List.mem_filter.1 inherited).1
      exact OffersField.upward ⟨id, .inl rfl, f, declared, rfl⟩ upward

end Accurate

/-- An accurate set has grown by classes from the classpath and is still accurate. -/
structure Grown (set later : ClassSet) : Prop where
  supplied : Supplied set later
  accurate : later.Accurate

namespace Grown

theorem refl (accurate : set.Accurate) : Grown set set := ⟨.refl accurate.wellFormed, accurate⟩

theorem trans (first : Grown set later) (second : Grown later latest) : Grown set latest :=
  ⟨first.supplied.trans second.supplied, second.accurate⟩

theorem loads (name : String) : Preserves (Grown base) (load name) :=
  load_rule (fun set file later grown provided inserted => by
    have accurate := grown.accurate.insert? inserted
    exact grown.trans ⟨(insert?_appends inserted).supplied grown.accurate.wellFormed
      accurate.wellFormed
      (by rw [provided?_of_onClasspath? provided, Option.isSome_some]), accurate⟩) name

/-- A program that keeps sets accurate and only lets them grow, from wherever it starts. -/
theorem preserves {m : ClassSetM PUnit} (each : ∀ set, Grown base set → Grown set (leftBy m set)) :
    Preserves (Grown base) m :=
  preserves_iff.2 fun set grown => grown.trans (each set grown)

end Grown

theorem leads_loadAncestor {P : ClassSet → Prop} (formed : ∀ set, P set → set.WellFormed)
    {name : String} (loads : Preserves P (load name)) (origin : ClassId) :
    Leads P (fun found set => P set ∧ ∀ id, found = some id →
      set.find? name = some id) P (loadAncestor origin name) := by
  have finds : Leads P (fun found set => P set ∧ ∀ id, found = some id →
      set.find? name = some id) P (load name) := by
    intro set holds
    have kept := loads set holds
    cases ran : (load name).run set with
    | ok found later =>
      rw [ran] at kept
      exact ⟨kept, fun id isFound => (load_ok (formed set holds) ran).2.2.1.trans isFound⟩
    | error e later =>
      rw [ran] at kept
      exact kept
  refine finds.bind fun found => ?_
  cases found with
  | some id => exact fun set both => both
  | none =>
    dsimp only
    split
    · exact fun set both => both
    · exact fun set both => both.1

/-- The names of a walk can be reached from the supertypes of the class at which it starts. -/
structure Ascends (base : ClassSet) (heir : ClassId) (names : List String)
    (set : ClassSet) : Prop where
  grown : Grown base set
  reached : ∀ name ∈ names, set.Reached [] (set.classAt heir).supertypes name

section

variable {heir : ClassId} {step : ClassId → ClassSet → ClassSet}

theorem Ascends.onward {names : List String} (ascends : Ascends base heir names set)
    (known : base.HasClass heir) (grown : Grown set later) : Ascends base heir names later := by
  refine ⟨ascends.grown.trans grown, fun name member => ?_⟩
  rw [grown.supplied.supertypes (ascends.grown.supplied.hasClass heir known)]
  exact grown.supplied.reached (ascends.reached name member)

/-- A walk keeps a set accurate if its steps do so at the ancestors of the class at which it
starts. -/
theorem grows_forAncestors (known : base.HasClass heir)
    (steps : ∀ id set, Grown base set → set.Upward heir id → Grown set (step id set)) (fuel : Nat) :
    ∀ entered names all, names ⊆ all →
      Preserves (Ascends base heir all) (forAncestors step heir fuel entered names) := by
  induction fuel with
  | zero => exact fun _ _ _ _ => .pure _ _
  | succ fuel ih =>
    intro entered names all inside
    refine .foldlM (fun entered name member => ?_) entered
    split
    · exact .pure _ _
    have loads : Preserves (Ascends base heir all) (load name) := preserves_iff.2 fun set ascends =>
      ascends.onward known (preserves_iff.1 (Grown.loads name) set (.refl ascends.grown.accurate))
    have loaded := leads_loadAncestor
      (fun _ ascends => ascends.grown.accurate.wellFormed) loads heir
    suffices goesOn : Leads _ (fun _ => Ascends base heir all) _ (loadAncestor heir name >>=
      _) from goesOn
    refine loaded.bind fun found => ?_
    cases found with
    | none => exact fun set both => both.1
    | some id =>
      -- The supertypes of the class that is entered can be reached, too.
      refine Leads.bind (Q := fun _ set =>
        base.Ascends heir (all ++ (set.classAt id).supertypes) set)
        (fun set both => ?_) fun _ set ascends => ?_
      · obtain ⟨ascends, found⟩ := both
        have found := found id rfl
        have more := steps id set ascends.grown
          (.inr ⟨name, ascends.reached name (inside member), found⟩)
        have ascends := ascends.onward known more
        refine ⟨ascends.grown, fun supertype member => ?_⟩
        rcases List.mem_append.1 member with old | new
        · exact ascends.reached supertype old
        · exact .above (ascends.reached name (inside ‹_›))
            (more.supplied.find? name id found) new nofun
      · have walks := ih (name :: entered)
          _ _ (List.subset_append_right all (set.classAt id).supertypes)
        have fewer (later : ClassSet)
          (ascends : Ascends base heir (all ++ (set.classAt id).supertypes) later) :
            Ascends base heir all later :=
          ⟨ascends.grown, fun name member => ascends.reached name (List.mem_append_left _ member)⟩
        exact ((Leads.of_preserves walks fewer).mono (fun _ ascends => ascends)
          fun _ => fewer) set ascends

/-- A walk over all ancestors of a class. -/
theorem grown_forAncestors (accurate : set.Accurate) (known : set.HasClass heir)
    (steps : ∀ id later, Grown set later → later.Upward heir id → Grown later (step id later))
    (fuel : Nat) (entered : List String) :
    Grown set (leftBy (forAncestors step heir fuel entered (set.classAt heir).supertypes) set) := by
  have walks := grows_forAncestors known steps fuel entered
    (set.classAt heir).supertypes _ fun _ member => member
  have start : Ascends set heir (set.classAt heir).supertypes set :=
    ⟨.refl accurate, fun name member => .named member nofun⟩
  exact (preserves_iff.1 walks set start).grown

end

/-- A method that stands keeps doing so while classes come in. -/
theorem Supplied.stands (supplied : Supplied set later) (formed : set.WellFormed) {m : MethodId}
    (stands : set.Stands m) :
    later.Stands m := by
  have known : set.HasClass (set.methodAt m).declaredBy := by
    by_contra unknown
    rw [Stands, classAt_of_unknown unknown] at stands
    cases stands
  have declaredBy := congrArg (·.declaredBy) (supplied.methodAt m (formed.methods _ m stands).1)
  have methods := congrArg (·.methods) (supplied.classAt _ known)
  dsimp only [MethodEntry.unowned, ClassEntry.unviewed] at declaredBy methods
  rwa [Stands, declaredBy, methods]

theorem grown_showOverrides {id : ClassId} (accurate : set.Accurate) (known : set.HasClass id) :
    Grown set (leftBy (showOverrides id) set) := by
  have formed := accurate.wellFormed
  have shows : Preserves (Grown set) ((set.inheritableMethods id).forM fun m => do
      let set ← get
      let _ ← forAncestors (showOverride m) id set.depthBound [] (set.classAt id).supertypes) := by
    refine .forM fun m member => Grown.preserves fun u grown => ?_
    obtain ⟨has, inheritable⟩ := inheritable_of_mem formed member
    have stands : set.Stands m := by
      rw [Stands, (formed.methods id m (List.mem_filter.1 member).1).2]
      exact (List.mem_filter.1 member).1
    have inheritable := grown.supplied.isInheritable has inheritable
    have stands := grown.supplied.stands formed stands
    change Grown u (leftBy
      (forAncestors (showOverride m) id u.depthBound [] (u.classAt id).supertypes >>= fun _ =>
      (pure ⟨⟩ : ClassSetM PUnit)) u)
    rw [leftBy_bind_pure]
    refine grown_forAncestors grown.accurate (grown.supplied.hasClass id known)
      (fun other v more _ => ?_) _ _
    have stands := more.supplied.stands grown.accurate.wellFormed stands
    have inheritable := more.supplied.isInheritable (grown.supplied.hasMethod m has) inheritable
    have accurate := more.accurate.showOverride stands inheritable other
    exact ⟨(sameFrame_showOverride inheritable other).supplied accurate.wellFormed, accurate⟩
  exact preserves_iff.1 shows set (.refl accurate)

theorem Grown.inheritMembers {heir id : ClassId} (accurate : set.Accurate)
    (upward : set.Upward heir id) :
    Grown set (inheritMembers heir id set) := by
  have later := accurate.inheritMembers upward
  exact ⟨(sameFrame_inheritMembers heir id set).supplied later.wellFormed, later⟩

theorem grown_inheritAll {heir : ClassId} (accurate : set.Accurate) (known : set.HasClass heir) :
    Grown set (leftBy (inheritAll heir) set) := by
  have inherits : Preserves (Grown set) (inheritAll heir) := by
    refine .bind (.modify fun s grown => grown.trans (.inheritMembers grown.accurate (.inl rfl)))
      fun _ =>
      .ofGet fun start grown => ?_
    dsimp only
    rw [leftBy_bind_pure]
    refine grown.trans
      (grown_forAncestors grown.accurate (grown.supplied.hasClass heir known)
        (fun id later more upward => ?_) _ _)
    exact .inheritMembers more.accurate upward
  exact preserves_iff.1 inherits set (.refl accurate)

theorem Accurate.shareInherited (accurate : set.Accurate) :
    (leftBy shareInherited set).Accurate := by
  have roots (id : ClassId) (root : id ∈ set.roots) {later : ClassSet} (grown : Grown set later) :
      later.HasClass id :=
    grown.supplied.hasClass id (known_of_root root)
  have shares : Preserves (Grown set) (do
      set.roots.forM showOverrides
      set.roots.forM inheritAll) := by
    refine .bind (.forM fun id root => ?_) fun _ => .forM fun id root => ?_
    · exact Grown.preserves fun later grown =>
        grown_showOverrides grown.accurate (roots id root grown)
    · exact Grown.preserves fun later grown => grown_inheritAll grown.accurate (roots id root grown)
  exact (preserves_iff.1 shares set (.refl accurate)).accurate

end JvmPatch.ClassSet
