import JvmPatch.Proofs.ClassSet.Accuracy

/-! The ancestors that somebody has to provide. Working out inheritance fails over one that nobody
provides, and only over such a one: the names that its walks come to are those that the classes and
the classpath lead to from the start. -/

set_option autoImplicit false

/-! ### Names tell classes apart, and stubs stay out of sight -/

namespace JvmPatch

/-- What tells a class apart and says whether it is seen. -/
def ClassEntry.tag (c : ClassEntry) : String × Bool × Bool := (c.name, c.isExternal, c.hidden)

namespace ClassSet

/-- Every known class is found under its name, and stubs are hidden. -/
structure Orderly (set : ClassSet) : Prop where
  found : ∀ id, set.HasClass id → set.find? (set.classAt id).name = some id
  stubs : ∀ id, (set.classAt id).isExternal = true → (set.classAt id).hidden = true

variable {set later : ClassSet}

theorem addClass_appends (set : ClassSet) (c : ClassEntry) :
    Appended set c.name c.hidden (set.addClass c) :=
  ⟨c, #[], #[], rfl, rfl, by simp [addClass]⟩

namespace Orderly

theorem empty (classpath : Classpath) : Orderly { classpath := classpath } := by
  refine ⟨fun id known => absurd known (Nat.not_lt_zero _), fun id _ => ?_⟩
  rw [classAt_of_unknown (Nat.not_lt_zero _)]
  rfl

theorem retagged (orderly : set.Orderly) (classCount : later.classes.size = set.classes.size)
    (tags : ∀ id, (later.classAt id).tag = (set.classAt id).tag) : later.Orderly := by
  have names (id : ClassId) : (later.classAt id).name = (set.classAt id).name :=
    congrArg (·.1) (tags id)
  have isExternal (id : ClassId) : (later.classAt id).isExternal = (set.classAt id).isExternal :=
    congrArg (·.2.1) (tags id)
  have hidden (id : ClassId) : (later.classAt id).hidden = (set.classAt id).hidden :=
    congrArg (·.2.2) (tags id)
  refine ⟨fun id known => ?_, fun id stub => ?_⟩
  · rw [find?_congr classCount names, names]
    exact orderly.found id (by rwa [HasClass, ← classCount])
  · rw [hidden]
    exact orderly.stubs id (isExternal id ▸ stub)

theorem ofClasses (orderly : set.Orderly) (same : later.classes = set.classes) : later.Orderly :=
  orderly.retagged (by rw [same]) fun id => by rw [classAt, classAt, same]

theorem modifyClass (orderly : set.Orderly) {f : ClassEntry → ClassEntry}
    (tags : ∀ c, (f c).tag = c.tag) (id : ClassId) :
    (set.modifyClass id f).Orderly :=
  orderly.retagged (Array.size_modify ..) fun cls =>
    set.classAt_modifyClass_same ClassEntry.tag tags id cls

theorem modifyMethod (orderly : set.Orderly) (m : MethodId) (f : MethodEntry → MethodEntry) :
    (set.modifyMethod m f).Orderly := orderly.ofClasses rfl

theorem addMethod (orderly : set.Orderly) (id : ClassId) (m : MethodDecl) (hidden : Bool) :
    (set.addMethod id m hidden).Orderly := by
  refine orderly.retagged (Array.size_modify ..) fun cls => ?_
  rcases set.classAt_addMethod_cases id m hidden cls with same | ⟨-, same⟩ <;> rw [same]
  rfl

theorem addField (orderly : set.Orderly) (id : ClassId) (f : FieldDecl) (hidden : Bool) :
    (set.addField id f hidden).Orderly := by
  refine orderly.retagged (Array.size_modify ..) fun cls => ?_
  rcases set.classAt_addField_cases id f hidden cls with same | ⟨-, same⟩ <;> rw [same]
  rfl

theorem removeMethod (orderly : set.Orderly) (m : MethodId) : (set.removeMethod m).Orderly := by
  refine orderly.retagged (Array.size_map ..) fun cls => ?_
  rw [set.classAt_removeMethod]
  rfl

theorem removeField (orderly : set.Orderly) (f : FieldId) : (set.removeField f).Orderly := by
  have hides : (set.modifyField f fun e => { e with hidden := true }).Orderly :=
    orderly.ofClasses rfl
  have tags (c : ClassEntry) : { c with fields := c.fields.filter (· != f) }.tag = c.tag := rfl
  exact hides.modifyClass tags _

theorem addClass (orderly : set.Orderly) {c : ClassEntry} (new : set.find? c.name = none)
    (stub : c.isExternal = true → c.hidden = true) : (set.addClass c).Orderly := by
  have search := (set.addClass_appends c).find?_eq
  refine ⟨fun id known => ?_, fun id isExternal => ?_⟩
  · by_cases old : set.HasClass id
    · rw [set.classAt_addClass_of_known c old, search, orderly.found id old, Option.some_or]
    · have last : id = set.nextClass := by
        rw [HasClass, ClassSet.addClass, Array.size_push] at known
        rw [HasClass] at old
        exact congrArg ClassId.mk (by omega)
      have entry : (set.addClass c).classAt set.nextClass = c := by
        simp [classAt, ClassSet.addClass, nextClass]
      rw [last, entry, search, new, if_pos rfl, Option.none_or]
  · rcases set.classAt_addClass_cases c id with same | ⟨-, isNew⟩
    · rw [same] at isExternal ⊢
      exact orderly.stubs id isExternal
    · rw [isNew] at isExternal ⊢
      exact stub isExternal

theorem insert? {file : ClassFile} {source : Option Bytes} {hidden : Bool} (orderly : set.Orderly)
    (inserted : set.insert? file source hidden = some later) : later.Orderly := by
  have new : set.find? file.header.name = none := by
    refine Option.not_isSome_iff_eq_none.1 fun known => ?_
    rw [ClassSet.insert?, if_pos known] at inserted
    cases inserted
  exact insert?_rule inserted (orderly.addClass new nofun)
    (fun u f orderly => orderly.addField _ f hidden)
    fun u m _ orderly => orderly.addMethod _ m hidden

theorem showOverride (orderly : set.Orderly) (m : MethodId) (id : ClassId) :
    (showOverride m id set).Orderly := by
  obtain ⟨same, -⟩ | ⟨place, replaced, -, -, -, changed⟩ := showOverride_cases m id set
  · exact same.symm ▸ orderly
  · rw [changed]
    exact (orderly.modifyMethod m _).modifyClass
      (f := fun c => { c with view := c.view.set place m }) (fun _ => rfl) id

theorem inheritMembers (orderly : set.Orderly) (heir id : ClassId) :
    (inheritMembers heir id set).Orderly :=
  orderly.ofClasses (classes_inheritMembers heir id set)

theorem loads (name : String) : Preserves Orderly (load name) :=
  load_rule (fun _ _ _ orderly _ inserted => orderly.insert? inserted) name

theorem loadsAncestor (origin : ClassId) (name : String) :
    Preserves Orderly (loadAncestor origin name) := by
  refine (loads name).bind fun found => ?_
  cases found with
  | some id => exact .pure _ _
  | none =>
    dsimp only
    split
    · exact .pure _ _
    · exact .ofGet fun _ orderly => orderly

theorem walks {step : ClassId → ClassSet → ClassSet}
    (steps : ∀ id u, Orderly u → Orderly (step id u)) (origin : ClassId) (fuel : Nat)
    (entered names : List String) :
    Preserves Orderly (forAncestors step origin fuel entered names) := by
  induction fuel generalizing entered names with
  | zero => exact .pure _ _
  | succ fuel ih =>
    refine .foldlM (fun entered name _ => ?_) entered
    split
    · exact .pure _ _
    refine (loadsAncestor origin name).bind fun found => ?_
    cases found with
    | none => exact .pure _ _
    | some id =>
      exact (Preserves.modify (steps id)).bind fun _ => .ofGet fun u orderly =>
        preserves_iff.1 (ih _ _) u orderly

theorem shares : Preserves Orderly shareInherited := by
  have shows (id : ClassId) : Preserves Orderly (showOverrides id) := by
    refine .ofGet fun set orderly => preserves_iff.1 (.forM fun m _ => ?_) set orderly
    refine .ofGet fun u orderly => preserves_iff.1 (.bind ?_ fun _ => .pure _ _) u orderly
    exact walks (fun cls u orderly => orderly.showOverride m cls) id _ _ _
  have inherits (id : ClassId) : Preserves Orderly (inheritAll id) := by
    refine (Preserves.modify fun set orderly => orderly.inheritMembers id id).bind fun _ => ?_
    refine .ofGet fun u orderly => preserves_iff.1 (.bind ?_ fun _ => .pure _ _) u orderly
    exact walks (fun cls u orderly => orderly.inheritMembers id cls) id _ _ _
  refine .ofGet fun set orderly => preserves_iff.1 ?_ set orderly
  exact (Preserves.forM fun id _ => shows id).bind fun _ => .forM fun id _ => inherits id

theorem loadsMentioned : Preserves Orderly loadMentioned :=
  loadMentioned_rule (fun _ _ _ orderly _ inserted => orderly.insert? inserted)
    fun _ _ orderly new => orderly.addClass new fun _ => rfl

end Orderly

end ClassSet

end JvmPatch

/-! ### Ancestors that somebody has to provide -/

namespace JvmPatch.ClassSet

/-- The supertypes of the class of a name: of the known one, or else of the one on the classpath. -/
def supertypesOf (set : ClassSet) (name : String) : List String :=
  match set.find? name with
  | some id => (set.classAt id).supertypes
  | none => ((set.provided? name).map fun file => file.header.supertypes).getD []

/-- A class names an ancestor among its supertypes, or one of its ancestors does. -/
inductive NamesAncestor (set : ClassSet) (id : ClassId) : String → Prop where
  | direct {name : String} : name ∈ (set.classAt id).supertypes → NamesAncestor set id name
  | onward {name above : String} : NamesAncestor set id name → above ∈ set.supertypesOf name →
      NamesAncestor set id above

/-- A class of a name is neither known nor on the classpath, and it does not belong to the
platform. -/
def Lacks (set : ClassSet) (name : String) : Prop :=
  set.find? name = none ∧ set.onClasspath? name = .ok none ∧ isPlatformClass name = false

/-- The files of the classpath can be read, and what is a class file declares the class under whose
name it is there. -/
structure WellFiled (set : ClassSet) : Prop where
  readable : ∀ name file, set.onClasspath? name ≠ .error file
  named : ∀ name file, set.onClasspath? name = .ok (some file) → file.header.name = name

/-- A set has grown by classes from the classpath, and all names lead where they have led before. -/
structure Alike (base set : ClassSet) : Prop where
  supplied : Supplied base set
  supertypesOf : ∀ name, set.supertypesOf name = base.supertypesOf name

variable {base set later : ClassSet}

theorem supertypesOf_known {name : String} {id : ClassId} (found : set.find? name = some id) :
    set.supertypesOf name = (set.classAt id).supertypes := by
  rw [supertypesOf, found]

theorem supertypesOf_unknown {name : String} (unknown : set.find? name = none) :
    set.supertypesOf name =
      ((set.provided? name).map fun file => file.header.supertypes).getD [] := by
  rw [supertypesOf, unknown]

/-- A class comes in with the header of its file. -/
theorem header_insert? {file : ClassFile} {source : Option Bytes} {hidden : Bool}
    (inserted : set.insert? file source hidden = some later) :
    (later.classAt set.nextClass).toClassHeader = file.header := by
  refine insert?_rule (P := fun u => (u.classAt set.nextClass).toClassHeader = file.header)
    inserted ?_ ?_ ?_
  · simp [classAt, addClass, nextClass]
  · intro u f same
    rcases u.classAt_addField_cases set.nextClass f hidden set.nextClass with
      unchanged | ⟨-, changed⟩
    · rw [unchanged, same]
    · rw [changed, same]
  · intro u m _ same
    rcases u.classAt_addMethod_cases set.nextClass m hidden set.nextClass with
      unchanged | ⟨-, changed⟩
    · rw [unchanged, same]
    · rw [changed, same]

namespace Alike

theorem refl (formed : set.WellFormed) : Alike set set := ⟨.refl formed, fun _ => rfl⟩

/-- A file that comes in under its name leads where it has led from the classpath. -/
theorem insert? {file : ClassFile} (alike : Alike base set)
    (provided : set.onClasspath? file.header.name = .ok (some file))
    (inserted : set.insert? file none true = some later) : Alike base later := by
  have appended := insert?_appends inserted
  have formed := (evolves_insert? inserted).wellFormed alike.supplied.wellFormed
  have supplied := appended.supplied alike.supplied.wellFormed formed
    (by rw [provided?_of_onClasspath? provided, Option.isSome_some])
  refine ⟨alike.supplied.trans supplied, fun name => (Eq.trans ?_ (alike.supertypesOf name))⟩
  cases known : set.find? name with
  | some id =>
    rw [supertypesOf_known known, supertypesOf_known (supplied.find? name id known),
      supplied.supertypes (find?_eq_some known).1]
  | none =>
    have search := appended.find?_eq name
    rw [known, Option.none_or] at search
    rw [supertypesOf_unknown known]
    by_cases isName : file.header.name = name
    · rw [if_pos isName] at search
      rw [supertypesOf_known search, header_insert? inserted, ← isName,
        provided?_of_onClasspath? provided]
      rfl
    · rw [if_neg isName] at search
      rw [supertypesOf_unknown search, provided?_congr supplied.classpath]

theorem sameFrame (alike : Alike base set) (same : SameFrame set later)
    (formed : later.WellFormed) : Alike base later := by
  refine ⟨alike.supplied.trans (same.supplied formed),
    fun name => (Eq.trans ?_ (alike.supertypesOf name))⟩
  cases known : set.find? name with
  | some id =>
    rw [supertypesOf_known known, supertypesOf_known (same.find? name ▸ known), same.supertypes]
  | none =>
    rw [supertypesOf_unknown known, supertypesOf_unknown (same.find? name ▸ known),
      provided?_congr same.classpath]

theorem lacks_of_unknown (alike : Alike base set) {name : String} (unknown : set.find? name = none)
    (missing : set.onClasspath? name = .ok none) (foreign : isPlatformClass name = false) :
    base.Lacks name := by
  refine ⟨?_, onClasspath?_congr alike.supplied.classpath name ▸ missing, foreign⟩
  cases known : base.find? name with
  | none => rfl
  | some id =>
    rw [alike.supplied.find? name id known] at unknown
    cases unknown

/-- With a well-filed classpath a class is looked up in vain only if nobody provides it. -/
theorem load (alike : Alike base set) (filed : base.WellFiled) (name : String) : ∃ later,
    (load name).run set = .ok (later.find? name) later ∧ Alike base later ∧
      (later.find? name = none → later.onClasspath? name = .ok none) := by
  cases known : set.find? name with
  | some id =>
    refine ⟨set, by simp [ClassSet.load, known], alike, fun unknown => ?_⟩
    cases known.symm.trans unknown
  | none =>
    cases provided : set.onClasspath? name with
    | error file =>
      exact absurd (onClasspath?_congr alike.supplied.classpath name ▸ provided)
        (filed.readable name file)
    | ok found =>
      cases found with
      | none => exact ⟨set, by simp [ClassSet.load, known, provided], alike, fun _ => provided⟩
      | some file =>
        have same := filed.named name file
          (onClasspath?_congr alike.supplied.classpath name ▸ provided)
        have free : (set.find? file.header.name).isSome = false := by rw [same, known]; rfl
        obtain ⟨later, inserted⟩ : ∃ later, set.insert? file none true = some later := by
          rw [ClassSet.insert?, if_neg (by simp [free])]
          exact ⟨_, rfl⟩
        have search : later.find? name = some set.nextClass := by
          rw [(insert?_appends inserted).find?_eq, known, if_pos same, Option.none_or]
        refine ⟨later, ?_, alike.insert? (same.symm ▸ provided) inserted, fun unknown => ?_⟩
        · rw [ClassSet.load, search]
          simp only [EStateM.run_bind, EStateM.run_get, known, provided, same, inserted, if_true,
            run_set, EStateM.run_pure]
        · cases search.symm.trans unknown

/-- An ancestor is found, or tolerated because it belongs to the platform, or nobody provides it. -/
theorem loadAncestor (alike : Alike base set) (filed : base.WellFiled) {origin : ClassId}
    (known : base.HasClass origin) (name : String) : ∃ later, Alike base later ∧
      ((loadAncestor origin name).run set = .ok (later.find? name) later ∨
        (loadAncestor origin name).run set =
          .error (.unresolvedAncestor (base.classAt origin).name name) later ∧
          base.Lacks name) := by
  obtain ⟨later, loads, after, absent⟩ := alike.load filed name
  refine ⟨later, after, ?_⟩
  rw [ClassSet.loadAncestor, EStateM.run_bind, loads]
  cases found : later.find? name with
  | some id => exact .inl rfl
  | none =>
    cases platform : isPlatformClass name with
    | true => exact .inl (by simp)
    | false =>
      refine .inr ⟨?_, after.lacks_of_unknown found (absent found) platform⟩
      simp [after.supplied.name known]

end Alike

/-- What goes wrong over an ancestor of a class that nobody provides. -/
def FailsOver (set : ClassSet) (id : ClassId) (e : ClassSetError) : Prop :=
  ∃ name, e = .unresolvedAncestor (set.classAt id).name name ∧ set.NamesAncestor id name ∧
    set.Lacks name

/-- A step adds no class and changes none but for its view. -/
def KeepsFrame (base : ClassSet) (step : ClassId → ClassSet → ClassSet) : Prop :=
  ∀ id set, Alike base set → SameFrame set (step id set) ∧ (step id set).WellFormed

variable {step : ClassId → ClassSet → ClassSet} {heir : ClassId}

theorem failsOnly_forAncestors (filed : base.WellFiled) (known : base.HasClass heir)
    (keeps : KeepsFrame base step) (fuel : Nat) :
    ∀ entered names, (∀ name ∈ names, base.NamesAncestor heir name) →
      FailsOnly (Alike base) (base.FailsOver heir) (forAncestors step heir fuel entered names) := by
  induction fuel with
  | zero => exact fun _ _ _ => .pure _
  | succ fuel ih =>
    intro entered names ancestors
    refine .foldlM (fun entered name member => ?_) entered
    split
    · exact .pure _
    intro set alike
    have isAncestor := ancestors name member
    obtain ⟨loaded, alike, ran | ⟨ran, lacks⟩⟩ := alike.loadAncestor filed known name
    · rw [EStateM.run_bind, ran]
      cases found : loaded.find? name with
      | none => exact alike
      | some id =>
        obtain ⟨same, formed⟩ := keeps id loaded alike
        have supertypes : ((step id loaded).classAt id).supertypes = base.supertypesOf name := by
          rw [same.supertypes, ← supertypesOf_known found, alike.supertypesOf]
        have above : ∀ n ∈ ((step id loaded).classAt id).supertypes, base.NamesAncestor heir n :=
          fun n member => .onward isAncestor (supertypes ▸ member)
        exact ih (name :: entered) _ above (step id loaded) (alike.sameFrame same formed)
    · rw [EStateM.run_bind, ran]
      exact ⟨alike, name, rfl, isAncestor, lacks⟩

/-- A walk over all ancestors of a class. -/
theorem Alike.failsOnly_ancestors (alike : Alike base set) (filed : base.WellFiled)
    (known : base.HasClass heir) (keeps : KeepsFrame base step) (fuel : Nat)
    (entered : List String) :
    FailsOnly (Alike base) (base.FailsOver heir) (do
      let _ ← forAncestors step heir fuel entered (set.classAt heir).supertypes) := by
  refine (failsOnly_forAncestors filed known keeps fuel entered _ fun name member => ?_).bind
    fun _ => .pure _
  exact .direct (alike.supplied.supertypes known ▸ member)

theorem failsOnly_showOverrides (filed : base.WellFiled) (formed : base.WellFormed)
    (known : base.HasClass heir) :
    FailsOnly (Alike base) (base.FailsOver heir) (showOverrides heir) := by
  refine .get fun set alike => ?_
  rw [alike.supplied.inheritableMethods formed known]
  refine .forM fun m member => .get fun u alike =>
    alike.failsOnly_ancestors filed known (fun id v alike => ?_) _ _
  obtain ⟨has, inheritable⟩ := inheritable_of_mem formed member
  have hasLater := alike.supplied.hasMethod m has
  exact ⟨sameFrame_showOverride (alike.supplied.isInheritable has inheritable) id,
    (evolves_showOverride hasLater id).wellFormed alike.supplied.wellFormed⟩

theorem failsOnly_inheritAll (filed : base.WellFiled) (known : base.HasClass heir) :
    FailsOnly (Alike base) (base.FailsOver heir) (inheritAll heir) := by
  have keeps : KeepsFrame base (inheritMembers heir) := fun id u alike =>
    ⟨sameFrame_inheritMembers heir id u,
      (evolves_inheritMembers heir id u).wellFormed alike.supplied.wellFormed⟩
  refine (FailsOnly.modify fun u alike => ?_).bind fun _ => .get fun u alike =>
    alike.failsOnly_ancestors filed known keeps _ _
  exact alike.sameFrame (keeps heir u alike).1 (keeps heir u alike).2

theorem failsOnly_roots (filed : base.WellFiled) (formed : base.WellFormed) :
    FailsOnly (Alike base) (fun e => ∃ id ∈ base.roots, base.FailsOver id e) (do
      base.roots.forM showOverrides
      base.roots.forM inheritAll) := by
  refine .bind (.forM fun id root => ?_) fun _ => .forM fun id root => ?_
  · exact (failsOnly_showOverrides filed formed (known_of_root root)).mono fun e fails =>
      ⟨id, root, fails⟩
  · exact (failsOnly_inheritAll filed (known_of_root root)).mono fun e fails => ⟨id, root, fails⟩

/-- Where walks have gone on to the end, they have come to all ancestors of a class but itself. -/
theorem Alike.reached (alike : Alike base later) (orderly : base.Orderly)
    (known : base.HasClass heir) (complete : later.Complete [(later.classAt heir).name] heir)
    {name : String} (ancestor : base.NamesAncestor heir name)
    (other : name ≠ (base.classAt heir).name) :
    later.Reached [(later.classAt heir).name] (later.classAt heir).supertypes name := by
  have isNamed := alike.supplied.name known
  have supertypes := alike.supplied.supertypes known
  have free {n : String} (other : n ≠ (base.classAt heir).name) :
      n ∉ [(later.classAt heir).name] := by
    rw [isNamed]
    exact fun member => other (List.mem_singleton.1 member)
  induction ancestor with
  | direct member => exact .named (supertypes.symm ▸ member) (free other)
  | @onward below name _ member ih =>
    -- What the class itself names is above it from the start.
    by_cases self : below = (base.classAt heir).name
    · rw [self, supertypesOf_known (orderly.found heir known)] at member
      exact .named (supertypes.symm ▸ member) (free other)
    have reached := ih self
    rw [← alike.supertypesOf] at member
    cases found : later.find? below with
    | some id => exact .above reached found (supertypesOf_known found ▸ member) (free other)
    | none =>
      rw [supertypesOf_unknown found] at member
      rcases complete below reached with isKnown | ⟨missing, -⟩
      · rw [found] at isKnown
        cases isKnown
      · rw [provided?_of_onClasspath? missing] at member
        cases member

/-- Working out inheritance succeeds if all ancestors are provided or belong to the platform, and
otherwise fails over one that is not. -/
theorem shareInherited_ends (orderly : set.Orderly) (formed : set.WellFormed)
    (filed : set.WellFiled) :
    (∃ later, shareInherited.run set = .ok ⟨⟩ later ∧
        ∀ id ∈ set.roots, ∀ name, set.NamesAncestor id name → ¬set.Lacks name) ∨
      ∃ e later, shareInherited.run set = .error e later ∧ ∃ id ∈ set.roots,
        set.FailsOver id e := by
  have fails := failsOnly_roots filed formed
  cases ran : shareInherited.run set with
  | error e later => exact .inr ⟨e, later, rfl, (fails.error (.refl formed) ran).2⟩
  | ok _ later =>
    refine .inl ⟨later, rfl, fun id root name ancestor lacks => ?_⟩
    have alike := fails.ok (.refl formed) ran
    have known := known_of_root root
    have complete := ((shared_of_run formed ran).granted id
      (alike.supplied.roots.symm ▸ root)).complete
    have other : name ≠ (set.classAt id).name := by
      intro self
      have found := orderly.found id known
      rw [← self, lacks.1] at found
      cases found
    rcases complete name (alike.reached orderly known complete ancestor other) with
      isKnown | ⟨-, platform⟩
    · rcases alike.supplied.provided name isKnown with known | provided
      · rw [lacks.1] at known
        cases known
      · rw [provided?_of_onClasspath? lacks.2.1] at provided
        cases provided
    · rw [lacks.2.2] at platform
      cases platform

end JvmPatch.ClassSet
