import JvmPatch.Proofs.ClassSet.Ancestors

/-! Working out inheritance a second time. The override that is shown in the end is the last one in
the order of the candidates, so a second run shows the same methods. Owners are the same, too, as
long as no two methods compete for one place: an earlier competitor takes over the owners of the one
that has won. -/

set_option autoImplicit false

namespace JvmPatch.ClassSet

variable {base set later latest : ClassSet}

/-- The classes among which inheritance is worked out. -/
def roots (set : ClassSet) : List ClassId :=
  set.candidates.filter fun id => !(set.classAt id).isExternal

/-- A class can be reached from the supertypes of another by way of known classes without a barred
name. -/
def Above (set : ClassSet) (barred : List String) (heir id : ClassId) : Prop :=
  ∃ name, set.Reached barred (set.classAt heir).supertypes name ∧ set.find? name = some id

/-- The methods that are shown in the views of ancestors, in the order in which they come. -/
def overrides (set : ClassSet) : List (ClassId × MethodId) :=
  set.roots.flatMap fun id => (set.inheritableMethods id).map (id, ·)

/-- All names that can be reached from the supertypes of a class resolve. -/
def Complete (set : ClassSet) (barred : List String) (heir : ClassId) : Prop :=
  ∀ name, set.Reached barred (set.classAt heir).supertypes name → set.Resolves name

/-- A method of a class overrides what stands in a place of the view of an ancestor. -/
def Shows (set : ClassSet) (id : ClassId) (place : Nat) (e : ClassId × MethodId) : Prop :=
  set.Above [] e.1 id ∧ set.place? e.2 id = some place

open Classical in
/-- The last of some methods that overrides what stands in a place. -/
noncomputable def lastShown (set : ClassSet) (es : List (ClassId × MethodId)) (id : ClassId)
    (place : Nat) :
    Option MethodId :=
  ((es.filter fun e => set.Shows id place e).getLast?).map (·.2)

/-- Methods have been shown one after the other, and nothing else has been done to the views of
known classes. -/
structure Overlays (es : List (ClassId × MethodId)) (set later : ClassSet) : Prop where
  supplied : Supplied set later
  known : ∀ e ∈ es, later.HasClass e.1 ∧ later.HasMethod e.2
  complete : ∀ e ∈ es, later.Complete [] e.1
  shown : ∀ id place, ∃ shown,
    (later.classAt id).view[place]? = (later.lastShown es id place).or shown ∧
    (set.HasClass id → shown = (set.classAt id).view[place]?)

theorem hasClass_of_above {barred : List String} {heir id : ClassId}
    (above : set.Above barred heir id) :
    set.HasClass id := by
  obtain ⟨_, _, found⟩ := above
  exact (find?_eq_some found).1

theorem Supplied.above_iff (supplied : Supplied set later) {barred : List String} {heir : ClassId}
    (known : set.HasClass heir) (complete : set.Complete barred heir) (id : ClassId) :
    later.Above barred heir id ↔ set.Above barred heir id := by
  rw [Above, supplied.supertypes known]
  constructor
  · rintro ⟨name, reached, found⟩
    rw [supplied.reached_iff complete] at reached
    exact ⟨name, reached, supplied.found_before (complete name reached) found⟩
  · rintro ⟨name, reached, found⟩
    exact ⟨name, supplied.reached reached, supplied.find? name id found⟩

theorem Supplied.complete (supplied : Supplied set later) {barred : List String} {heir : ClassId}
    (known : set.HasClass heir) (complete : set.Complete barred heir) :
    later.Complete barred heir := by
  intro name reached
  rw [supplied.supertypes known, supplied.reached_iff complete] at reached
  exact supplied.resolves (complete name reached)

theorem Supplied.shows_iff (supplied : Supplied set later) {e : ClassId × MethodId}
    (known : set.HasClass e.1) (method : set.HasMethod e.2) (complete : set.Complete [] e.1)
    (id : ClassId) (place : Nat) :
    later.Shows id place e ↔ set.Shows id place e := by
  rw [Shows, Shows, supplied.above_iff known complete]
  refine and_congr_right fun above => ?_
  rw [supplied.place? method (hasClass_of_above above)]

theorem lastShown_congr {es : List (ClassId × MethodId)} {id : ClassId} {place : Nat}
    (same : ∀ e ∈ es, later.Shows id place e ↔ set.Shows id place e) :
    later.lastShown es id place = set.lastShown es id place := by
  rw [lastShown, lastShown]
  congr 2
  exact List.filter_congr fun e member => decide_eq_decide.2 (same e member)

theorem lastShown_append (set : ClassSet) (es es' : List (ClassId × MethodId)) (id : ClassId)
    (place : Nat) :
    set.lastShown (es ++ es') id place =
      (set.lastShown es' id place).or (set.lastShown es id place) := by
  rw [lastShown, lastShown, lastShown, List.filter_append, List.getLast?_append, Option.map_or]

theorem lastShown_eq_some {es : List (ClassId × MethodId)} {id : ClassId} {place : Nat}
    {m : MethodId} (last : set.lastShown es id place = some m) : ∃ heir, (heir, m) ∈ es ∧
      set.Shows id place (heir, m) := by
  obtain ⟨e, isLast, rfl⟩ := Option.map_eq_some_iff.1 last
  obtain ⟨member, shows⟩ := List.mem_filter.1 (List.mem_of_getLast? isLast)
  exact ⟨e.1, member, by simpa using shows⟩

theorem lastShown_isSome {es : List (ClassId × MethodId)} {id : ClassId} {place : Nat}
    {e : ClassId × MethodId} (member : e ∈ es) (shows : set.Shows id place e) :
    (set.lastShown es id place).isSome := by
  rw [lastShown, Option.isSome_map, List.getLast?_isSome]
  exact List.ne_nil_of_mem (List.mem_filter.2 ⟨member, by simpa using shows⟩)

theorem lastShown_of_shows {e : ClassId × MethodId} {id : ClassId} {place : Nat}
    (shows : set.Shows id place e) :
    set.lastShown [e] id place = some e.2 := by
  rw [lastShown, List.filter_cons_of_pos (by simpa using shows)]
  rfl

theorem lastShown_of_not_shows {e : ClassId × MethodId} {id : ClassId} {place : Nat}
    (other : ¬set.Shows id place e) :
    set.lastShown [e] id place = none := by
  rw [lastShown, List.filter_cons_of_neg (by simpa using other)]
  rfl

/-- Only classes that are known have a place in which something is shown. -/
theorem lastShown_of_unknown {id : ClassId} (unknown : ¬set.HasClass id)
    (es : List (ClassId × MethodId)) (place : Nat) :
    set.lastShown es id place = none := by
  cases last : set.lastShown es id place with
  | none => rfl
  | some m =>
    obtain ⟨_, -, shows⟩ := lastShown_eq_some last
    exact absurd (hasClass_of_above shows.1) unknown

namespace Overlays

variable {es es' : List (ClassId × MethodId)}

theorem trans (first : Overlays es set later) (second : Overlays es' later latest) :
    Overlays (es ++ es') set latest where
  supplied := first.supplied.trans second.supplied
  known e member := by
    rcases List.mem_append.1 member with member | member
    · obtain ⟨cls, method⟩ := first.known e member
      exact ⟨second.supplied.hasClass _ cls, second.supplied.hasMethod _ method⟩
    · exact second.known e member
  complete e member := by
    rcases List.mem_append.1 member with member | member
    · exact second.supplied.complete (first.known e member).1 (first.complete e member)
    · exact second.complete e member
  shown id place := by
    have same : latest.lastShown es id place = later.lastShown es id place :=
      lastShown_congr fun e member =>
        second.supplied.shows_iff (first.known e member).1 (first.known e member).2
        (first.complete e member) id place
    obtain ⟨between, isLater, isBetween⟩ := second.shown id place
    rw [isLater, lastShown_append, same]
    by_cases known : later.HasClass id
    · obtain ⟨shown, isShown, isBefore⟩ := first.shown id place
      exact ⟨shown, by rw [isBetween known, isShown, Option.or_assoc], isBefore⟩
    · refine ⟨between, by rw [lastShown_of_unknown known, Option.or_none], fun was => ?_⟩
      exact absurd (first.supplied.hasClass id was) known

theorem refl (formed : set.WellFormed) : Overlays [] set set :=
  ⟨.refl formed, nofun, nofun, fun _ _ => ⟨_, rfl, fun _ => rfl⟩⟩

end Overlays

theorem known_of_root {id : ClassId} (root : id ∈ set.roots) : set.HasClass id := by
  have candidate := (List.mem_filter.1 root).1
  rw [candidates, List.mem_mergeSort] at candidate
  obtain ⟨index, inside, rfl⟩ := List.mem_map.1 (List.mem_filter.1 candidate).1
  exact List.mem_range.1 inside

theorem Supplied.isInheritable (supplied : Supplied set later) {m : MethodId}
    (known : set.HasMethod m) (inheritable : (set.methodAt m).access.isInheritable) :
    (later.methodAt m).access.isInheritable := by
  have same := congrArg (·.2) (supplied.kind known)
  exact Eq.trans same inheritable

theorem quiet_showOverride {m : MethodId} (known : base.HasMethod m)
    (inheritable : (base.methodAt m).access.isInheritable) : Quiet base (showOverride m) := by
  intro id set supplied
  refine (sameFrame_showOverride (supplied.isInheritable known inheritable) id).supplied ?_
  exact (evolves_showOverride (supplied.hasMethod m known) id).wellFormed supplied.wellFormed

section

variable {m : MethodId} {visited : List ClassId} {names entered : List String}

/-- A method that is shown once stays where it is while other ancestors are visited. -/
theorem Walk.shows (walk : Walk (showOverride m) [] names set visited entered later)
    (formed : set.WellFormed) (known : set.HasMethod m)
    (inheritable : (set.methodAt m).access.isInheritable) {id : ClassId} {place : Nat}
    (visits : id ∈ visited) (found : later.place? m id = some place) :
    (later.classAt id).view[place]? = some m := by
  have quiet := quiet_showOverride known inheritable
  let P := fun u => Supplied set u ∧ u.HasClass id ∧
    ∀ place, u.place? m id = some place → (u.classAt id).view[place]? = some m
  have kept : Kept (showOverride m) (Supplied set) :=
    ⟨fun grown ran => grown.trans (load_ok grown.wellFormed ran).1,
      fun id _ grown => grown.trans (quiet id _ grown)⟩
  have keptShown : Kept (showOverride m) P := by
    refine ⟨?_, ?_⟩
    · rintro name found u v ⟨grown, has, shown⟩ ran
      obtain ⟨later, same, -⟩ := load_ok grown.wellFormed ran
      refine ⟨grown.trans later, later.hasClass id has, fun place isPlace => ?_⟩
      rw [later.place? (grown.hasMethod m known) has] at isPlace
      rw [same.classAt id has]
      exact shown place isPlace
    · rintro other u ⟨grown, has, shown⟩
      have later := quiet other u grown
      refine ⟨grown.trans later, later.hasClass id has, fun place isPlace => ?_⟩
      rw [later.place? (grown.hasMethod m known) has] at isPlace
      rw [view_showOverride]
      split
      · rfl
      · exact shown place isPlace
  refine (walk.makes (·.wellFormed) kept keptShown ?_ visits (.refl formed)).2.2 place found
  intro u grown has
  have later := quiet id u grown
  refine ⟨grown.trans later, later.hasClass id has, fun place isPlace => ?_⟩
  rw [later.place? (grown.hasMethod m known) has] at isPlace
  rw [view_showOverride, if_pos ⟨rfl, isPlace⟩]

theorem Walk.spares (walk : Walk (showOverride m) [] names set visited entered later)
    (formed : set.WellFormed) (known : set.HasMethod m)
    (inheritable : (set.methodAt m).access.isInheritable) {id : ClassId} {place : Nat}
    (has : set.HasClass id) (other : ¬(id ∈ visited ∧ set.place? m id = some place)) :
    (later.classAt id).view[place]? = (set.classAt id).view[place]? := by
  refine (walk.keeps (P := fun u => Supplied set u ∧
    (u.classAt id).view[place]? = (set.classAt id).view[place]?) ?_ ?_ ⟨.refl formed, rfl⟩).2
  · rintro name found u v ⟨grown, same⟩ ran
    obtain ⟨later, untouched, -⟩ := load_ok grown.wellFormed ran
    exact ⟨grown.trans later, by rw [untouched.classAt id (grown.hasClass id has), same]⟩
  · rintro cls visits u ⟨grown, same⟩
    refine ⟨grown.trans (quiet_showOverride known inheritable cls u grown), ?_⟩
    rw [view_showOverride, if_neg, same]
    rintro ⟨rfl, isPlace⟩
    exact other ⟨visits, (grown.place? known has).symm.trans isPlace⟩

/-- A walk shows a method wherever it overrides something, and nothing else is done to the views. -/
theorem Walk.overlays {heir : ClassId}
    (walk : Walk (showOverride m) [] (set.classAt heir).supertypes set visited entered later)
    (formed : set.WellFormed) (cls : set.HasClass heir) (known : set.HasMethod m)
    (inheritable : (set.methodAt m).access.isInheritable) : Overlays [(heir, m)] set later := by
  have quiet := quiet_showOverride known inheritable
  have supplied := walk.supplied quiet (.refl formed)
  have mem_visited (id : ClassId) : id ∈ visited ↔ later.Above [] heir id := by
    rw [Above, supplied.supertypes cls]
    exact walk.mem_visited quiet (.refl formed) id
  constructor
  case supplied => exact supplied
  case known =>
    exact fun e member =>
      List.mem_singleton.1 member ▸ ⟨supplied.hasClass _ cls, supplied.hasMethod _ known⟩
  case complete =>
    intro e member name reached
    rw [List.mem_singleton.1 member, supplied.supertypes cls] at reached
    exact walk.resolves quiet (.refl formed) name reached
  case shown =>
    intro id place
    by_cases here : later.Shows id place (heir, m)
    · refine ⟨(set.classAt id).view[place]?, ?_, fun _ => rfl⟩
      rw [lastShown_of_shows here, Option.some_or]
      exact walk.shows formed known inheritable ((mem_visited id).2 here.1) here.2
    refine ⟨_, by rw [lastShown_of_not_shows here, Option.none_or], fun has =>
      walk.spares formed known inheritable has fun both => here ?_⟩
    exact ⟨(mem_visited id).1 both.1, (supplied.place? known has).trans both.2⟩

end

/-- What a loop shows is what its steps show, one after the other. -/
theorem overlays_forM {α : Type} {f : α → ClassSetM PUnit}
    {es : α → List (ClassId × MethodId)} {xs : List α}
    (each : ∀ x ∈ xs, ∀ u v, Supplied set u → (f x).run u = .ok ⟨⟩ v → Overlays (es x) u v) :
    ∀ u v, Supplied set u → (xs.forM f).run u = .ok ⟨⟩ v → Overlays (xs.flatMap es) u v := by
  induction xs with
  | nil =>
    intro u v grown ran
    cases ran
    exact .refl grown.wellFormed
  | cons x xs ih =>
    intro u v grown ran
    obtain ⟨_, w, first, rest⟩ := run_bind_ok ran
    have one := each x List.mem_cons_self u w grown first
    exact one.trans (ih (fun y member => each y (.tail _ member)) w v
      (grown.trans one.supplied) rest)

theorem inheritable_of_mem {id : ClassId} {m : MethodId} (formed : set.WellFormed)
    (member : m ∈ set.inheritableMethods id) :
    set.HasMethod m ∧ (set.methodAt m).access.isInheritable := by
  obtain ⟨declared, visible⟩ := List.mem_filter.1 member
  exact ⟨(formed.methods id m declared).1, (Bool.and_eq_true_iff.1 visible).2⟩

theorem overlays_showOverrides {id : ClassId} (formed : set.WellFormed) (known : set.HasClass id)
    (ran : (showOverrides id).run set = .ok ⟨⟩ later) :
    Overlays ((set.inheritableMethods id).map (id, ·)) set later := by
  rw [List.map_eq_flatMap]
  refine overlays_forM (fun m member u v (grown : Supplied set u) ran => ?_) set later
    (.refl formed) ran
  obtain ⟨has, inheritable⟩ := inheritable_of_mem formed member
  obtain ⟨_, _, got, ran⟩ := run_bind_ok ran
  cases got
  obtain ⟨entered, w, walks, rest⟩ := run_bind_ok ran
  cases rest
  have hasLater := grown.hasMethod m has
  have inheritableLater := grown.isInheritable has inheritable
  obtain ⟨visited, walk⟩ :=
    walk_of_run (quiet_showOverride hasLater inheritableLater) id _ _ _ _ _ _
    (.refl grown.wellFormed) (by simpa using u.card_nameable_lt) walks
  exact walk.overlays grown.wellFormed (grown.hasClass id known) hasLater inheritableLater

def heritableFields (set : ClassSet) (id : ClassId) : List FieldId :=
  (set.classAt id).fields.filter fun f =>
    !(set.fieldAt f).hidden && (set.fieldAt f).access.isInheritable

/-- The methods in the view of a class that its subclasses inherit. -/
def heritableMethods (set : ClassSet) (id : ClassId) : List MethodId :=
  (set.classAt id).view.filter fun m =>
    !(set.methodAt m).hidden && (set.methodAt m).access.isInheritable

theorem known_of_visible {m : MethodId} (visible : (set.methodAt m).hidden = false) :
    set.HasMethod m := by
  refine Nat.lt_of_not_le fun outside => ?_
  rw [methodAt, Array.getElem?_eq_none outside] at visible
  cases visible

theorem known_of_visibleField {f : FieldId} (visible : (set.fieldAt f).hidden = false) :
    set.HasField f := by
  refine Nat.lt_of_not_le fun outside => ?_
  rw [fieldAt, Array.getElem?_eq_none outside] at visible
  cases visible

theorem methodOwners_inheritMembers (heir id : ClassId) (set : ClassSet) (m : MethodId)
    (o : ClassId) :
    o ∈ ((inheritMembers heir id set).methodAt m).owners ↔
      o ∈ (set.methodAt m).owners ∨ o = heir ∧ m ∈ set.heritableMethods id := by
  have fields (fs : List FieldId) (u : ClassSet) :
      (fs.foldl (fun set f => set.modifyField f fun e =>
      { e with owners := insertAscending heir e.owners }) u).methods = u.methods := by
    induction fs generalizing u with
    | nil => rfl
    | cons f fs ih => exact ih _
  have methods (ms : List MethodId) (u : ClassSet) (known : ∀ m ∈ ms, u.HasMethod m) :
      o ∈ ((ms.foldl (fun set m => set.modifyMethod m fun e =>
        { e with owners := insertAscending heir e.owners }) u).methodAt m).owners ↔
          o ∈ (u.methodAt m).owners ∨ o = heir ∧ m ∈ ms := by
    induction ms generalizing u with
    | nil => simp
    | cons x xs ih =>
      rw [List.foldl_cons,
        ih _ fun y member => (u.hasMethod_modifyMethod x y _).2 (known y (.tail _ member))]
      by_cases same : m = x
      · subst same
        rw [u.methodAt_modifyMethod_self _ (known m List.mem_cons_self), mem_insertAscending]
        simp only [List.mem_cons, true_or, and_true]
        tauto
      · rw [u.methodAt_modifyMethod_of_ne _ same]
        simp only [List.mem_cons, same, false_or]
  rw [inheritMembers, methods, methodAt, fields]
  · rfl
  · intro x member
    rw [HasMethod, fields]
    have visible := (Bool.and_eq_true_iff.1 (List.mem_filter.1 member).2).1
    exact known_of_visible (by simpa using visible)

theorem classes_inheritMembers (heir id : ClassId) (set : ClassSet) :
    (inheritMembers heir id set).classes = set.classes := by
  have fields (fs : List FieldId) (u : ClassSet) :
      (fs.foldl (fun set f => set.modifyField f fun e =>
      { e with owners := insertAscending heir e.owners }) u).classes = u.classes := by
    induction fs generalizing u with
    | nil => rfl
    | cons f fs ih => exact ih _
  have methods (ms : List MethodId) (u : ClassSet) :
      (ms.foldl (fun set m => set.modifyMethod m fun e =>
      { e with owners := insertAscending heir e.owners }) u).classes = u.classes := by
    induction ms generalizing u with
    | nil => rfl
    | cons m ms ih => exact ih _
  rw [inheritMembers, methods, fields]

theorem fieldOwners_inheritMembers (heir id : ClassId) (set : ClassSet) (f : FieldId)
    (o : ClassId) :
    o ∈ ((inheritMembers heir id set).fieldAt f).owners ↔
      o ∈ (set.fieldAt f).owners ∨ o = heir ∧ f ∈ set.heritableFields id := by
  have methods (ms : List MethodId) (u : ClassSet) :
      (ms.foldl (fun set m => set.modifyMethod m fun e =>
      { e with owners := insertAscending heir e.owners }) u).fields = u.fields := by
    induction ms generalizing u with
    | nil => rfl
    | cons m ms ih => exact ih _
  have fields (fs : List FieldId) (u : ClassSet) (known : ∀ f ∈ fs, u.HasField f) :
      o ∈ ((fs.foldl (fun set f => set.modifyField f fun e =>
        { e with owners := insertAscending heir e.owners }) u).fieldAt f).owners ↔
          o ∈ (u.fieldAt f).owners ∨ o = heir ∧ f ∈ fs := by
    induction fs generalizing u with
    | nil => simp
    | cons x xs ih =>
      rw [List.foldl_cons,
        ih _ fun y member => (u.hasField_modifyField x y _).2 (known y (.tail _ member))]
      by_cases same : f = x
      · subst same
        rw [u.fieldAt_modifyField_self _ (known f List.mem_cons_self), mem_insertAscending]
        simp only [List.mem_cons, true_or, and_true]
        tauto
      · rw [u.fieldAt_modifyField_of_ne _ same]
        simp only [List.mem_cons, same, false_or]
  rw [inheritMembers, fieldAt, methods]
  refine fields _ set fun x member => ?_
  have visible := (Bool.and_eq_true_iff.1 (List.mem_filter.1 member).2).1
  exact known_of_visibleField (by simpa using visible)

/-- Members have got more owners, and all views are as they were. -/
structure Endowed (set later : ClassSet) : Prop where
  supplied : Supplied set later
  view : ∀ id, set.HasClass id → (later.classAt id).view = (set.classAt id).view
  methodOwners : ∀ m, set.HasMethod m → (set.methodAt m).owners ⊆ (later.methodAt m).owners
  fieldOwners : ∀ f, set.HasField f → (set.fieldAt f).owners ⊆ (later.fieldAt f).owners

/-- A class is an owner of all members that it inherits from another. -/
def Bequeathed (set : ClassSet) (heir id : ClassId) : Prop :=
  (∀ m ∈ set.heritableMethods id, heir ∈ (set.methodAt m).owners) ∧
    ∀ f ∈ set.heritableFields id, heir ∈ (set.fieldAt f).owners

namespace Endowed

theorem refl (formed : set.WellFormed) : Endowed set set :=
  ⟨.refl formed, fun _ _ => rfl, fun _ _ _ h => h, fun _ _ _ h => h⟩

theorem trans (first : Endowed set later) (second : Endowed later latest) : Endowed set latest where
  supplied := first.supplied.trans second.supplied
  view id known := (second.view id (first.supplied.hasClass id known)).trans (first.view id known)
  methodOwners m known _ owner :=
    second.methodOwners m (first.supplied.hasMethod m known) (first.methodOwners m known owner)
  fieldOwners f known _ owner :=
    second.fieldOwners f (first.supplied.hasField f known) (first.fieldOwners f known owner)

theorem load {name : String} {found : Option ClassId} (formed : set.WellFormed)
    (ran : (load name).run set = .ok found later) : Endowed set later := by
  obtain ⟨supplied, same, -⟩ := load_ok formed ran
  exact ⟨supplied, fun id known => by rw [same.classAt id known],
    fun m known _ owner => by rwa [same.methodAt m known],
    fun f known _ owner => by rwa [same.fieldAt f known]⟩

theorem inheritMembers (heir id : ClassId) (formed : set.WellFormed) :
    Endowed set (inheritMembers heir id set) where
  supplied := (sameFrame_inheritMembers heir id set).supplied
    ((evolves_inheritMembers heir id set).wellFormed formed)
  view cls _ := by rw [classAt, classes_inheritMembers]; rfl
  methodOwners m _ o owner := (methodOwners_inheritMembers heir id set m o).2 (.inl owner)
  fieldOwners f _ o owner := (fieldOwners_inheritMembers heir id set f o).2 (.inl owner)

theorem heritableMethods (endowed : Endowed set later) (formed : set.WellFormed) {id : ClassId}
    (known : set.HasClass id) :
    later.heritableMethods id = set.heritableMethods id := by
  rw [ClassSet.heritableMethods, ClassSet.heritableMethods, endowed.view id known]
  refine List.filter_congr fun m member => ?_
  have same := congrArg (fun e => !e.hidden && e.access.isInheritable)
    (endowed.supplied.methodAt m (formed.views id m member))
  exact same

theorem heritableFields (endowed : Endowed set later) (formed : set.WellFormed) {id : ClassId}
    (known : set.HasClass id) :
    later.heritableFields id = set.heritableFields id := by
  have fields := congrArg (·.fields) (endowed.supplied.classAt id known)
  rw [ClassSet.heritableFields,
    show (later.classAt id).fields = (set.classAt id).fields from fields]
  refine List.filter_congr fun f member => ?_
  have same := congrArg (fun e => !e.hidden && e.access.isInheritable)
    (endowed.supplied.fieldAt f (formed.fields id f member).1)
  exact same

theorem bequeathed (endowed : Endowed set later) (formed : set.WellFormed) {heir id : ClassId}
    (known : set.HasClass id) (bequeathed : set.Bequeathed heir id) : later.Bequeathed heir id := by
  constructor
  · intro m member
    rw [endowed.heritableMethods formed known] at member
    have has := formed.views id m (List.mem_filter.1 member).1
    exact endowed.methodOwners m has (bequeathed.1 m member)
  · intro f member
    rw [endowed.heritableFields formed known] at member
    have has := (formed.fields id f (List.mem_filter.1 member).1).1
    exact endowed.fieldOwners f has (bequeathed.2 f member)

end Endowed

/-- A class is an owner of all that it has and inherits, and no ancestor of it can come in later. -/
structure Granted (set : ClassSet) (heir : ClassId) : Prop where
  complete : set.Complete [(set.classAt heir).name] heir
  bequeathed : ∀ id, id = heir ∨ set.Above [(set.classAt heir).name] heir id →
    set.Bequeathed heir id

theorem Supplied.name (supplied : Supplied set later) {id : ClassId} (known : set.HasClass id) :
    (later.classAt id).name = (set.classAt id).name := by
  have same := congrArg (·.name) (supplied.classAt id known)
  exact same

theorem Endowed.granted (endowed : Endowed set later) (formed : set.WellFormed) {heir : ClassId}
    (known : set.HasClass heir) (granted : set.Granted heir) : later.Granted heir := by
  have supplied := endowed.supplied
  constructor
  · rw [supplied.name known]
    exact supplied.complete known granted.complete
  · rw [supplied.name known]
    intro id isAbove
    rw [supplied.above_iff known granted.complete] at isAbove
    have has : set.HasClass id := by
      rcases isAbove with rfl | above
      · exact known
      · exact hasClass_of_above above
    exact endowed.bequeathed formed has (granted.bequeathed id isAbove)

theorem bequeathed_inheritMembers (heir : ClassId) {id : ClassId} (formed : set.WellFormed)
    (known : set.HasClass id) :
    (inheritMembers heir id set).Bequeathed heir id := by
  have endowed := Endowed.inheritMembers heir id formed
  constructor
  · intro m member
    rw [endowed.heritableMethods formed known] at member
    exact (methodOwners_inheritMembers heir id set m heir).2 (.inr ⟨rfl, member⟩)
  · intro f member
    rw [endowed.heritableFields formed known] at member
    exact (fieldOwners_inheritMembers heir id set f heir).2 (.inr ⟨rfl, member⟩)

/-- Every class that is visited leaves its members to the heir. -/
theorem Walk.endows {heir : ClassId} {visited : List ClassId} {entered entered' names : List String}
    (walk : Walk (inheritMembers heir) entered names set visited entered' later)
    (formed : set.WellFormed) :
    Endowed set later ∧ ∀ id ∈ visited, later.Bequeathed heir id := by
  have kept : Kept (inheritMembers heir) (Endowed set) :=
    ⟨fun so ran => so.trans (.load so.supplied.wellFormed ran),
      fun id _ so => so.trans (.inheritMembers heir id so.supplied.wellFormed)⟩
  refine ⟨walk.keeps kept.load (fun id _ => kept.step id) (.refl formed), fun id visits => ?_⟩
  let P := fun u => Endowed set u ∧ u.HasClass id ∧ u.Bequeathed heir id
  have carry {u v : ClassSet} (so : P u) (more : Endowed u v) : P v :=
    ⟨so.1.trans more, more.supplied.hasClass id so.2.1,
      more.bequeathed so.1.supplied.wellFormed so.2.1 so.2.2⟩
  have keptToo : Kept (inheritMembers heir) P :=
    ⟨fun so ran => carry so (.load so.1.supplied.wellFormed ran),
      fun id _ so => carry so (.inheritMembers heir id so.1.supplied.wellFormed)⟩
  refine (walk.makes (·.supplied.wellFormed) kept keptToo (fun {u} so known => ?_) visits
    (.refl formed)).2.2
  have more := Endowed.inheritMembers heir id so.supplied.wellFormed
  exact ⟨so.trans more, more.supplied.hasClass id known,
    bequeathed_inheritMembers heir so.supplied.wellFormed known⟩

theorem inheritAll_ok {heir : ClassId} (formed : set.WellFormed) (known : set.HasClass heir)
    (ran : (inheritAll heir).run set = .ok ⟨⟩ later) : Endowed set later ∧ later.Granted heir := by
  obtain ⟨_, start, got, ran⟩ := run_bind_ok ran
  cases got
  obtain ⟨_, _, got, ran⟩ := run_bind_ok ran
  cases got
  obtain ⟨entered, _, walks, rest⟩ := run_bind_ok ran
  cases rest
  have own := Endowed.inheritMembers heir heir formed
  have ownAll := bequeathed_inheritMembers heir formed known
  generalize inheritMembers heir heir set = start at own ownAll walks
  have startFormed := own.supplied.wellFormed
  have startKnown := own.supplied.hasClass heir known
  have quiet : Quiet start (inheritMembers heir) := fun id u grown =>
    (Endowed.inheritMembers heir id grown.wellFormed).supplied
  have enough : (start.nameable \ [(start.classAt heir).name].toFinset).card < start.depthBound :=
    Nat.lt_of_le_of_lt (Finset.card_le_card Finset.sdiff_subset) start.card_nameable_lt
  obtain ⟨visited, walk⟩ := walk_of_run quiet heir _ _ _ _ _ _ (.refl startFormed) enough walks
  obtain ⟨endowed, bequeathed⟩ := walk.endows startFormed
  have supplied := endowed.supplied
  refine ⟨own.trans endowed, ?_, ?_⟩
  · intro name reached
    rw [supplied.name startKnown, supplied.supertypes startKnown] at reached
    exact walk.resolves quiet (.refl startFormed) name reached
  · rintro id (rfl | above)
    · exact endowed.bequeathed startFormed startKnown ownAll
    · rw [supplied.name startKnown, Above, supplied.supertypes startKnown] at above
      exact bequeathed id ((walk.mem_visited quiet (.refl startFormed) id).2 above)

theorem granted_forM {heirs : List ClassId} : ∀ u v, u.WellFormed → (∀ id ∈ heirs, u.HasClass id) →
    (heirs.forM inheritAll).run u = .ok ⟨⟩ v → Endowed u v ∧ ∀ id ∈ heirs, v.Granted id := by
  induction heirs with
  | nil =>
    intro u v formed _ ran
    cases ran
    exact ⟨.refl formed, nofun⟩
  | cons heir heirs ih =>
    intro u v formed known ran
    obtain ⟨_, w, first, rest⟩ := run_bind_ok ran
    have here := known heir List.mem_cons_self
    obtain ⟨one, granted⟩ := inheritAll_ok formed here first
    have middle := one.supplied
    obtain ⟨others, all⟩ :=
      ih w v middle.wellFormed
        (fun id member => middle.hasClass id (known id (.tail _ member))) rest
    refine ⟨one.trans others, fun id member => ?_⟩
    rcases List.mem_cons.1 member with rfl | member
    · exact others.granted middle.wellFormed (middle.hasClass id here) granted
    · exact all id member

/-- Inheritance has been worked out: the last override is shown, and heirs are owners of what they
inherit. -/
structure Shared (set : ClassSet) : Prop where
  wellFormed : set.WellFormed
  complete : ∀ e ∈ set.overrides, set.Complete [] e.1
  shown : ∀ id place, ∃ shown,
    (set.classAt id).view[place]? = (set.lastShown set.overrides id place).or shown
  granted : ∀ heir ∈ set.roots, set.Granted heir

theorem Supplied.isCandidate (supplied : Supplied set later) {id : ClassId}
    (known : set.HasClass id) :
    later.isCandidate id = set.isCandidate id := by
  have same := congrArg (fun c => !c.hidden && !c.removed) (supplied.classAt id known)
  exact same

/-- What comes in from the classpath is hidden, so there are no new candidates. -/
theorem Supplied.candidates (supplied : Supplied set later) :
    later.candidates = set.candidates := by
  have bound : set.classes.size ≤ later.classes.size := by
    refine Nat.le_of_not_lt fun fewer => ?_
    exact Nat.lt_irrefl _ (supplied.hasClass ⟨later.classes.size⟩ fewer)
  have ids : later.classIds.filter later.isCandidate = set.classIds.filter set.isCandidate := by
    obtain ⟨more, size⟩ := Nat.exists_eq_add_of_le bound
    rw [classIds, size, List.range_add, List.map_append, List.filter_append, classIds]
    have new : (((List.range more).map (set.classes.size + ·)).map ClassId.mk).filter
        later.isCandidate = [] := by
      refine List.filter_eq_nil_iff.2 fun id member => ?_
      simp only [List.mem_map, exists_exists_and_eq_and] at member
      obtain ⟨index, -, rfl⟩ := member
      have hidden := supplied.hidden ⟨set.classes.size + index⟩
        (Nat.not_lt.2 (Nat.le_add_right _ _))
      simp [ClassSet.isCandidate, hidden]
    rw [new, List.append_nil]
    refine List.filter_congr fun id member => ?_
    obtain ⟨index, inside, rfl⟩ := List.mem_map.1 member
    exact supplied.isCandidate (List.mem_range.1 inside)
  rw [ClassSet.candidates, ids, ClassSet.candidates]
  have names (id : ClassId) (member : id ∈ set.classIds.filter set.isCandidate) :
      (later.classAt id).name = (set.classAt id).name := by
    obtain ⟨index, inside, rfl⟩ := List.mem_map.1 (List.mem_filter.1 member).1
    exact supplied.name (List.mem_range.1 inside)
  have sorted := List.map_mergeSort (f := id) (l := set.classIds.filter set.isCandidate)
    (r := fun a b => (compare (later.classAt a).name (later.classAt b).name).isLE)
    (s := fun a b => (compare (set.classAt a).name (set.classAt b).name).isLE)
    fun a isA b isB => by rw [names a isA, names b isB]; rfl
  simpa using sorted

theorem Supplied.roots (supplied : Supplied set later) : later.roots = set.roots := by
  rw [ClassSet.roots, ClassSet.roots, supplied.candidates]
  refine List.filter_congr fun id member => ?_
  have known : set.HasClass id := by
    rw [ClassSet.candidates, List.mem_mergeSort] at member
    obtain ⟨index, inside, rfl⟩ := List.mem_map.1 (List.mem_filter.1 member).1
    exact List.mem_range.1 inside
  have same := congrArg (fun c => !c.isExternal) (supplied.classAt id known)
  exact same

theorem Supplied.inheritableMethods (supplied : Supplied set later) (formed : set.WellFormed)
    {id : ClassId} (known : set.HasClass id) :
    later.inheritableMethods id = set.inheritableMethods id := by
  have methods := congrArg (·.methods) (supplied.classAt id known)
  rw [ClassSet.inheritableMethods,
    show (later.classAt id).methods = (set.classAt id).methods from methods]
  refine List.filter_congr fun m member => ?_
  have same := congrArg (fun e => !e.hidden && e.access.isInheritable)
    (supplied.methodAt m (formed.methods id m member).1)
  exact same

theorem Supplied.overrides (supplied : Supplied set later) (formed : set.WellFormed) :
    later.overrides = set.overrides := by
  rw [ClassSet.overrides, supplied.roots, ClassSet.overrides, List.flatMap_def, List.flatMap_def]
  congr 1
  refine List.map_congr_left fun id root => ?_
  rw [supplied.inheritableMethods formed (known_of_root root)]

theorem overlays_roots (formed : set.WellFormed)
    (ran : (set.roots.forM showOverrides).run set = .ok ⟨⟩ later) :
    Overlays set.overrides set later := by
  refine overlays_forM (fun id root u v (grown : Supplied set u) ran => ?_) set later
    (.refl formed) ran
  have known := known_of_root root
  have shown := overlays_showOverrides grown.wellFormed (grown.hasClass id known) ran
  rwa [grown.inheritableMethods formed known] at shown

theorem shared_of_run (formed : set.WellFormed)
    (ran : shareInherited.run set = .ok ⟨⟩ later) : later.Shared := by
  obtain ⟨_, _, got, ran⟩ := run_bind_ok ran
  cases got
  obtain ⟨_, between, first, second⟩ := run_bind_ok ran
  have overlays := overlays_roots formed first
  have supplied := overlays.supplied
  obtain ⟨endowed, granted⟩ := granted_forM between later supplied.wellFormed
    (fun id root => supplied.hasClass id (known_of_root root)) second
  have kept : Overlays [] between later :=
    ⟨endowed.supplied, nofun, nofun,
      fun id place => ⟨_, rfl, fun known => by rw [endowed.view id known]⟩⟩
  have whole := overlays.trans kept
  rw [List.append_nil] at whole
  refine ⟨whole.supplied.wellFormed, ?_, fun id place => ?_, ?_⟩
  · rw [whole.supplied.overrides formed]
    exact whole.complete
  · rw [whole.supplied.overrides formed]
    obtain ⟨shown, isLater, -⟩ := whole.shown id place
    exact ⟨shown, isLater⟩
  · rw [whole.supplied.roots]
    exact granted

/-- No two different methods of a signature are shown in one place. -/
def Uncontested (set : ClassSet) (signature : String × String) : Prop :=
  ∀ e ∈ set.overrides, ∀ e' ∈ set.overrides, set.signature e.2 = signature →
    set.signature e'.2 = signature →
    ∀ id place, set.Shows id place e → set.Shows id place e' → e.2 = e'.2

theorem known_of_override {e : ClassId × MethodId} (formed : set.WellFormed)
    (member : e ∈ set.overrides) :
    set.HasClass e.1 ∧ set.HasMethod e.2 ∧ (set.methodAt e.2).access.isInheritable := by
  obtain ⟨id, root, member⟩ := List.mem_flatMap.1 member
  obtain ⟨m, inherited, rfl⟩ := List.mem_map.1 member
  exact ⟨known_of_root root, inheritable_of_mem formed inherited⟩

theorem exists_of_place? {m : MethodId} {id : ClassId} {place : Nat}
    (found : set.place? m id = some place) :
    ∃ shown, (set.classAt id).view[place]? = some shown := by
  rw [place?] at found
  obtain ⟨inside, -, -⟩ := List.findIdx?_eq_some_iff_getElem.1 found
  exact ⟨_, List.getElem?_eq_getElem inside⟩

/-- A method without competitors is shown wherever it overrides something. -/
theorem Shared.shown_of_uncontested (shared : set.Shared) {e : ClassId × MethodId}
    (member : e ∈ set.overrides) (uncontested : set.Uncontested (set.signature e.2)) {id : ClassId}
    {place : Nat} (shows : set.Shows id place e) :
    (set.classAt id).view[place]? = some e.2 := by
  obtain ⟨m, isLast⟩ := Option.isSome_iff_exists.1 (lastShown_isSome member shows)
  obtain ⟨heir, member', shows'⟩ := lastShown_eq_some isLast
  obtain ⟨there, isThere⟩ := exists_of_place? shows.2
  have signature := congrArg (·.1)
    ((kind_of_place? shows'.2 isThere).symm.trans (kind_of_place? shows.2 isThere))
  obtain ⟨shown, isShown⟩ := shared.shown id place
  rw [isShown, isLast, Option.some_or]
  exact congrArg some (uncontested _ member' e member signature rfl id place shows' shows)

/-- Working through the overrides again, methods without competitors stay where they are, with their
owners, and others get owners of competitors. -/
structure Standing (set later : ClassSet) : Prop where
  frame : SameFrame set later
  fields : later.fields = set.fields
  shown : ∀ (id : ClassId) (place : Nat) (m : MethodId), (set.classAt id).view[place]? = some m →
    set.Uncontested (set.signature m) →
    (later.classAt id).view[place]? = some m
  owners : ∀ m, set.Uncontested (set.signature m) →
    (later.methodAt m).owners = (set.methodAt m).owners
  gained : ∀ m, ∀ o ∈ (later.methodAt m).owners,
    ∃ m', set.signature m' = set.signature m ∧ o ∈ (set.methodAt m').owners

theorem SameFrame.kind (same : SameFrame set later) (m : MethodId) : later.kind m = set.kind m := by
  have kind := congrArg (fun e => ((e.name, e.desc), e.access.isInheritable)) (same.methodAt m)
  exact kind

theorem SameFrame.signature (same : SameFrame set later) (m : MethodId) :
    later.signature m = set.signature m :=
  congrArg (·.1) (same.kind m)

theorem SameFrame.place? (same : SameFrame set later) (m : MethodId) (id : ClassId) :
    later.place? m id = set.place? m id := by
  rw [place?_eq, place?_eq, same.kinds, same.signature]

theorem Standing.showOverride (standing : Standing set later) (shared : set.Shared)
    {e : ClassId × MethodId} (member : e ∈ set.overrides) {id : ClassId}
    (above : set.Above [] e.1 id) :
    Standing set (showOverride e.2 id later) := by
  obtain ⟨-, known, inheritable⟩ := known_of_override shared.wellFormed member
  have frame := standing.frame
  have inheritableLater : (later.methodAt e.2).access.isInheritable :=
    (congrArg (·.2) (frame.kind e.2)).trans inheritable
  have framed := frame.trans (sameFrame_showOverride inheritableLater id)
  obtain ⟨same, -⟩ | ⟨place, replaced, found, shows, different, changed⟩ :=
    showOverride_cases e.2 id later
  · rw [same]
    exact standing
  have contested : ¬set.Uncontested (set.signature e.2) := by
    intro uncontested
    have first := shared.shown_of_uncontested member uncontested ⟨above,
      (frame.place? e.2 id).symm.trans found⟩
    have still := standing.shown id place e.2 first uncontested
    exact different (Option.some.inj (shows.symm.trans still))
  constructor
  case frame => exact framed
  case fields =>
    rw [changed]
    exact standing.fields
  case shown =>
    intro cls there m isShown uncontested
    rw [view_showOverride]
    split
    · rename_i here
      have kind := kind_of_place? ((frame.place? e.2 cls).symm.trans here.2) isShown
      have signature : set.signature m = set.signature e.2 := congrArg (·.1) kind
      exact absurd (signature ▸ uncontested) contested
    · exact standing.shown cls there m isShown uncontested
  case owners =>
    intro m uncontested
    have other : m ≠ e.2 := fun same => contested (same ▸ uncontested)
    rw [changed, ← standing.owners m uncontested]
    exact congrArg (·.owners) (later.methodAt_modifyMethod_of_ne _ other)
  case gained =>
    intro m o owner
    rw [changed] at owner
    change o ∈ ((later.modifyMethod e.2 _).methodAt m).owners at owner
    by_cases same : m = e.2
    · subst same
      have knownLater : later.HasMethod e.2 := by rwa [HasMethod, frame.methodCount]
      rw [later.methodAt_modifyMethod_self _ knownLater] at owner
      rcases (mem_foldl_insertAscending o _ _).1 owner with owner | owner
      · obtain ⟨m', signature, owner⟩ := standing.gained replaced o owner
        have kind := congrArg (·.1) (kind_of_place? found shows)
        rw [← frame.signature replaced] at signature
        exact ⟨m', signature.trans (Eq.trans kind (frame.signature e.2)), owner⟩
      · exact standing.gained e.2 o owner
    · rw [later.methodAt_modifyMethod_of_ne _ same] at owner
      exact standing.gained m o owner

theorem SameFrame.inheritableMethods (same : SameFrame set later) (id : ClassId) :
    later.inheritableMethods id = set.inheritableMethods id := by
  have methods := congrArg (·.methods) (same.classAt id)
  rw [ClassSet.inheritableMethods,
    show (later.classAt id).methods = (set.classAt id).methods from methods]
  refine List.filter_congr fun m _ => ?_
  have visible := congrArg (fun e => !e.hidden && e.access.isInheritable) (same.methodAt m)
  exact visible

theorem standing_roots (shared : set.Shared) :
    ∃ later, (set.roots.forM showOverrides).run set = .ok ⟨⟩ later ∧ Standing set later := by
  refine forM_succeeds (P := Standing set) (fun id root u standing => ?_) set
    ⟨.refl set, rfl, fun _ _ _ shown _ => shown, fun _ _ => rfl, fun m _ owner => ⟨m, rfl, owner⟩⟩
  have runs : (showOverrides id).run u = ((u.inheritableMethods id).forM fun m => do
      let set ← get
      let _ ← forAncestors (ClassSet.showOverride m) id set.depthBound []
        (set.classAt id).supertypes).run u := rfl
  rw [runs, standing.frame.inheritableMethods]
  refine forM_succeeds (fun m inherited w standing => ?_) u standing
  have member : (id, m) ∈ set.overrides :=
    List.mem_flatMap.2 ⟨id, root, List.mem_map.2 ⟨m, inherited, rfl⟩⟩
  obtain ⟨entered, v, ran, after, -⟩ := walk_succeeds [] (set.classAt id).supertypes
    (fun _ standing => standing.frame) (shared.complete _ member)
    (fun name cls reached found u standing => standing.showOverride shared member ⟨name,
      reached, found⟩)
    id w.depthBound (w.classAt id).supertypes [] w standing (fun _ h => h) fun name member free =>
      .named (standing.frame.supertypes id ▸ member) free
  exact ⟨v, run_bind_of_ok ran, after⟩

theorem ClassEntry.eq_of_unviewed {c d : ClassEntry} (same : c.unviewed = d.unviewed)
    (view : c.view = d.view) :
    c = d := by
  cases c
  cases d
  simp_all [ClassEntry.unviewed]

/-- The last override is shown already, so showing all overrides again changes no view. -/
theorem classes_of_overlays (shared : set.Shared) (frame : SameFrame set later)
    (overlays : Overlays set.overrides set later) : later.classes = set.classes := by
  have entries (id : ClassId) : later.classAt id = set.classAt id := by
    refine ClassEntry.eq_of_unviewed (frame.classAt id) (List.ext_getElem? fun place => ?_)
    have same : later.lastShown set.overrides id place = set.lastShown set.overrides id place := by
      refine lastShown_congr fun e member => ?_
      obtain ⟨cls, method, -⟩ := known_of_override shared.wellFormed member
      exact overlays.supplied.shows_iff cls method (shared.complete e member) id place
    obtain ⟨before, isLater, isBefore⟩ := overlays.shown id place
    obtain ⟨first, isFirst⟩ := shared.shown id place
    by_cases known : set.HasClass id
    · rw [isLater, isBefore known, same, isFirst, ← Option.or_assoc, Option.or_self]
    · have unknown : ¬later.HasClass id := by rwa [HasClass, frame.classCount]
      rw [classAt_of_unknown known, classAt_of_unknown unknown]
  refine Array.ext frame.classCount fun index inside inside' => ?_
  have entry := entries ⟨index⟩
  rwa [classAt, classAt, Array.getElem?_eq_getElem inside,
    Array.getElem?_eq_getElem inside'] at entry

/-- A class set is as it was, but for owners that methods with competitors have got from these. -/
structure Unchanged (set later : ClassSet) : Prop where
  frame : SameFrame set later
  classes : later.classes = set.classes
  fieldOwners : ∀ f o, o ∈ (later.fieldAt f).owners ↔ o ∈ (set.fieldAt f).owners
  methodOwners : ∀ m, set.Uncontested (set.signature m) → ∀ o,
    o ∈ (later.methodAt m).owners ↔ o ∈ (set.methodAt m).owners
  gained : ∀ m, ∀ o ∈ (later.methodAt m).owners,
    ∃ m', set.signature m' = set.signature m ∧ o ∈ (set.methodAt m').owners

theorem Unchanged.inheritMembers (unchanged : Unchanged set later) {heir id : ClassId}
    (bequeathed : set.Bequeathed heir id) : Unchanged set (inheritMembers heir id later) := by
  have frame := unchanged.frame
  have methods : later.heritableMethods id = set.heritableMethods id := by
    rw [heritableMethods, heritableMethods, classAt, unchanged.classes]
    refine List.filter_congr fun m _ => ?_
    have visible := congrArg (fun e => !e.hidden && e.access.isInheritable) (frame.methodAt m)
    exact visible
  have fields : later.heritableFields id = set.heritableFields id := by
    rw [heritableFields, heritableFields, classAt, unchanged.classes]
    refine List.filter_congr fun f _ => ?_
    have visible := congrArg (fun e => !e.hidden && e.access.isInheritable) (frame.fieldAt f)
    exact visible
  constructor
  case frame => exact frame.trans (sameFrame_inheritMembers heir id later)
  case classes => rw [classes_inheritMembers, unchanged.classes]
  case fieldOwners =>
    intro f o
    rw [fieldOwners_inheritMembers, fields, unchanged.fieldOwners]
    exact ⟨fun owner => owner.elim (fun h => h) fun h => h.1 ▸ bequeathed.2 f h.2, .inl⟩
  case methodOwners =>
    intro m uncontested o
    rw [methodOwners_inheritMembers, methods, unchanged.methodOwners m uncontested]
    exact ⟨fun owner => owner.elim (fun h => h) fun h => h.1 ▸ bequeathed.1 m h.2, .inl⟩
  case gained =>
    intro m o owner
    rw [methodOwners_inheritMembers, methods] at owner
    rcases owner with owner | ⟨rfl, member⟩
    · exact unchanged.gained m o owner
    · exact ⟨m, rfl, bequeathed.1 m member⟩

theorem Unchanged.inheritAll (unchanged : Unchanged set later) {heir : ClassId}
    (granted : set.Granted heir) :
    ∃ latest, (inheritAll heir).run later = .ok ⟨⟩ latest ∧ Unchanged set latest := by
  have own := unchanged.inheritMembers (granted.bequeathed heir (.inl rfl))
  generalize starts : ClassSet.inheritMembers heir heir later = start at own
  have name : (start.classAt heir).name = (set.classAt heir).name := by
    rw [classAt, own.classes]; rfl
  have supertypes : (start.classAt heir).supertypes = (set.classAt heir).supertypes := by
    rw [classAt, own.classes]; rfl
  obtain ⟨entered, v, ran, after, -⟩ := walk_succeeds [(set.classAt heir).name]
    (set.classAt heir).supertypes (fun _ unchanged => unchanged.frame) granted.complete
    (fun name cls reached found u unchanged =>
      unchanged.inheritMembers (granted.bequeathed cls (.inr ⟨name, reached, found⟩)))
    heir start.depthBound (start.classAt heir).supertypes [(start.classAt heir).name] start own
    (by rw [name]; exact fun _ h => h) fun name member free => .named (supertypes ▸ member) free
  refine ⟨v, ?_, after⟩
  have runs : (ClassSet.inheritAll heir).run later =
      ((forAncestors (ClassSet.inheritMembers heir) heir start.depthBound
      [(start.classAt heir).name] (start.classAt heir).supertypes >>= fun _ =>
        pure ⟨⟩) : ClassSetM Unit).run start :=
    starts ▸ rfl
  rw [runs, run_bind_of_ok ran]
  rfl

/-- Working out inheritance again succeeds. All views are as they were, and so are the owners of all
fields and of all methods without competitors. What another method gains are owners of methods with
its signature. -/
theorem shareInherited_again (formed : set.WellFormed)
    (ran : shareInherited.run set = .ok ⟨⟩ later) :
    ∃ latest, shareInherited.run later = .ok ⟨⟩ latest ∧ Unchanged later latest := by
  have shared := shared_of_run formed ran
  obtain ⟨between, first, standing⟩ := standing_roots shared
  have overlays := overlays_roots shared.wellFormed first
  have start : Unchanged later between :=
    ⟨standing.frame, classes_of_overlays shared standing.frame overlays, fun f o => by
      rw [fieldAt, standing.fields]; rfl,
      fun m uncontested o => by rw [standing.owners m uncontested], standing.gained⟩
  obtain ⟨latest, second, after⟩ := forM_succeeds (fun heir root u unchanged =>
    unchanged.inheritAll (shared.granted heir root)) between start
  exact ⟨latest, (run_bind_of_ok first).trans second, after⟩

/-- The root of a hierarchy and two classes that extend it, all with a method `run`. The root shows
a given method, and the methods of the other two have given owners. -/
def siblings (shown : MethodId) (first second : List ClassId) : ClassSet :=
  let entry : String → Option String → MethodId → MethodId → ClassEntry :=
    fun name superName declared shown =>
    { ClassEntry.fresh name superName 33 with
      methods := [declared], view := [shown], modified := false }
  let method : ClassId → List ClassId → MethodEntry := fun id owners =>
    { name := "run"
      desc := "()V"
      access := 1
      exceptions := []
      code := some { insns := [.simple Opcode.voidReturn] }
      declaredBy := id
      owners := owners }
  { classes := #[entry "p/P" none ⟨0⟩ shown, entry "p/A" (some "p/P") ⟨1⟩ ⟨1⟩,
    entry "p/B" (some "p/P") ⟨2⟩ ⟨2⟩]
    methods := #[method ⟨0⟩ [⟨0⟩], method ⟨1⟩ first, method ⟨2⟩ second] }

theorem wellFormed_siblings : (siblings ⟨0⟩ [⟨1⟩] [⟨2⟩]).WellFormed := by
  have inserted : siblings ⟨0⟩ [⟨1⟩] [⟨2⟩] =
      ofFiles ([("p/P", none), ("p/A", some "p/P"), ("p/B", some "p/P")].map
      fun (name, superName) => ⟨⟨name, superName, [], 33, 50, 0, none⟩, [],
        [⟨"run", "()V", 1, [], some { insns := [.simple Opcode.voidReturn] }⟩]⟩) := by
    decide +kernel
  rw [inserted]
  exact wellFormed_ofFiles _

theorem candidates_siblings {shown : MethodId} {first second : List ClassId} :
    (siblings shown first second).candidates = [⟨1⟩, ⟨2⟩, ⟨0⟩] :=
  have visible : (siblings shown first second).classIds.filter
    (siblings shown first second).isCandidate = [⟨0⟩, ⟨1⟩, ⟨2⟩] := rfl
  candidates_of_sorted (visible ▸ by decide)
    (show ["p/A", "p/B", "p/P"].Pairwise (compare · · = .lt) by decide)

theorem shareInherited_siblings : shareInherited.run (siblings ⟨0⟩ [⟨1⟩] [⟨2⟩]) =
    .ok ⟨⟩ (siblings ⟨2⟩ [⟨0⟩, ⟨1⟩] [⟨0⟩, ⟨1⟩, ⟨2⟩]) := by
  rw [shareInherited_of_candidates candidates_siblings]
  decide +kernel

theorem shareInherited_again_siblings :
    (siblings ⟨0⟩ [⟨1⟩] [⟨2⟩]).WellFormed ∧
      ∃ latest, shareInherited.run (siblings ⟨2⟩ [⟨0⟩, ⟨1⟩] [⟨0⟩, ⟨1⟩, ⟨2⟩]) = .ok ⟨⟩ latest ∧
        Unchanged (siblings ⟨2⟩ [⟨0⟩, ⟨1⟩] [⟨0⟩, ⟨1⟩, ⟨2⟩]) latest :=
  ⟨wellFormed_siblings, shareInherited_again wellFormed_siblings shareInherited_siblings⟩

/-- The method of the first sibling has the second as an owner only once inheritance is worked out
again. -/
theorem shareInherited_again_gains :
    ∃ m later latest, shareInherited.run (siblings ⟨0⟩ [⟨1⟩] [⟨2⟩]) = .ok ⟨⟩ later ∧
      shareInherited.run later = .ok ⟨⟩ latest ∧
        ∃ o ∈ (latest.methodAt m).owners, o ∉ (later.methodAt m).owners := by
  have again : shareInherited.run (siblings ⟨2⟩ [⟨0⟩, ⟨1⟩] [⟨0⟩, ⟨1⟩, ⟨2⟩]) =
      .ok ⟨⟩ (siblings ⟨2⟩ [⟨0⟩, ⟨1⟩, ⟨2⟩] [⟨0⟩, ⟨1⟩, ⟨2⟩]) := by
    rw [shareInherited_of_candidates candidates_siblings]
    decide +kernel
  exact ⟨⟨1⟩, _, _, shareInherited_siblings, again, ⟨2⟩, by decide, by decide⟩

end JvmPatch.ClassSet
