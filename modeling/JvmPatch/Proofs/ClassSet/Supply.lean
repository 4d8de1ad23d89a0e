import JvmPatch.Proofs.ClassSet.Views

/-! What stays when classes are taken from the classpath and inheritance is worked out: all of a
known class but what stands in the places of its view, and all of a known member but its owners. -/

set_option autoImplicit false

namespace JvmPatch

/-- What a class is apart from what its view shows. -/
def ClassEntry.unviewed (c : ClassEntry) : ClassEntry := { c with view := [] }

/-- What a method is apart from the classes through which it can be reached. -/
def MethodEntry.unowned (m : MethodEntry) : MethodEntry := { m with owners := [] }

/-- What a field is apart from the classes through which it can be reached. -/
def FieldEntry.unowned (f : FieldEntry) : FieldEntry := { f with owners := [] }

namespace ClassSet

/-- The signature of a method, and whether subclasses inherit it. -/
def kind (set : ClassSet) (m : MethodId) : (String × String) × Bool :=
  (set.signature m, (set.methodAt m).access.isInheritable)

/-- Two sets have the same classes and members. Views may show other methods of the same kinds. -/
structure SameFrame (set later : ClassSet) : Prop where
  classCount : later.classes.size = set.classes.size
  methodCount : later.methods.size = set.methods.size
  fieldCount : later.fields.size = set.fields.size
  classpath : later.classpath = set.classpath
  classAt : ∀ id, (later.classAt id).unviewed = (set.classAt id).unviewed
  methodAt : ∀ m, (later.methodAt m).unowned = (set.methodAt m).unowned
  fieldAt : ∀ f, (later.fieldAt f).unowned = (set.fieldAt f).unowned
  kinds : ∀ id, (later.classAt id).view.map later.kind = (set.classAt id).view.map set.kind

/-- The class file that the classpath provides under a name. -/
def provided? (set : ClassSet) (name : String) : Option ClassFile :=
  (set.onClasspath? name).toOption.join

/-- A set has grown by classes from the classpath. -/
structure Supplied (set later : ClassSet) : Prop where
  hasClass : ∀ id, set.HasClass id → later.HasClass id
  hasMethod : ∀ m, set.HasMethod m → later.HasMethod m
  hasField : ∀ f, set.HasField f → later.HasField f
  classpath : later.classpath = set.classpath
  classAt : ∀ id, set.HasClass id → (later.classAt id).unviewed = (set.classAt id).unviewed
  methodAt : ∀ m, set.HasMethod m → (later.methodAt m).unowned = (set.methodAt m).unowned
  fieldAt : ∀ f, set.HasField f → (later.fieldAt f).unowned = (set.fieldAt f).unowned
  kinds : ∀ id, set.HasClass id →
    (later.classAt id).view.map later.kind = (set.classAt id).view.map set.kind
  hidden : ∀ id, ¬set.HasClass id → (later.classAt id).hidden = true
  find? : ∀ name id, set.find? name = some id → later.find? name = some id
  provided : ∀ name, (later.find? name).isSome → (set.find? name).isSome ∨
    (set.provided? name).isSome
  wellFormed : later.WellFormed

/-- Known classes and members are as they were. -/
structure Untouched (set later : ClassSet) : Prop where
  classAt : ∀ id, set.HasClass id → later.classAt id = set.classAt id
  methodAt : ∀ m, set.HasMethod m → later.methodAt m = set.methodAt m
  fieldAt : ∀ f, set.HasField f → later.fieldAt f = set.fieldAt f

variable {set later latest : ClassSet}

theorem onClasspath?_congr (same : later.classpath = set.classpath) (name : String) :
    later.onClasspath? name = set.onClasspath? name := by
  rw [onClasspath?, same, onClasspath?]

theorem provided?_of_onClasspath? {name : String} {file? : Option ClassFile}
    (found : set.onClasspath? name = .ok file?) :
    set.provided? name = file? := by
  rw [provided?, found]
  rfl

theorem exists_of_provided? {name : String} (provided : (set.provided? name).isSome) :
    ∃ file, set.onClasspath? name = .ok (some file) := by
  match found : set.onClasspath? name with
  | .ok (some file) => exact ⟨file, rfl⟩
  | .ok none | .error _ =>
    rw [provided?, found] at provided
    cases provided

theorem provided?_congr (same : later.classpath = set.classpath) (name : String) :
    later.provided? name = set.provided? name := by
  rw [provided?, onClasspath?_congr same, provided?]

theorem find?_congr (size : later.classes.size = set.classes.size)
    (names : ∀ id, (later.classAt id).name = (set.classAt id).name) (name : String) :
    later.find? name = set.find? name := by
  have same : later.classes.map (·.name) = set.classes.map (·.name) := by
    refine Array.ext (by rw [Array.size_map, Array.size_map, size]) fun index inside inside' => ?_
    have one := names ⟨index⟩
    rw [Array.size_map] at inside inside'
    simpa [classAt, Array.getElem?_eq_getElem inside, Array.getElem?_eq_getElem inside'] using one
  have search (classes : Array ClassEntry) : classes.findIdx? (fun c => c.name == name) =
      (classes.map (·.name)).findIdx? (· == name) := by
    rw [Array.findIdx?_map]
    rfl
  rw [find?, find?, search, search, same]

theorem Untouched.refl (set : ClassSet) : Untouched set set :=
  ⟨fun _ _ => rfl, fun _ _ => rfl, fun _ _ => rfl⟩

namespace SameFrame

theorem refl (set : ClassSet) : SameFrame set set :=
  ⟨rfl, rfl, rfl, rfl, fun _ => rfl, fun _ => rfl, fun _ => rfl, fun _ => rfl⟩

theorem trans (first : SameFrame set later) (second : SameFrame later latest) :
    SameFrame set latest where
  classCount := second.classCount.trans first.classCount
  methodCount := second.methodCount.trans first.methodCount
  fieldCount := second.fieldCount.trans first.fieldCount
  classpath := second.classpath.trans first.classpath
  classAt id := (second.classAt id).trans (first.classAt id)
  methodAt m := (second.methodAt m).trans (first.methodAt m)
  fieldAt f := (second.fieldAt f).trans (first.fieldAt f)
  kinds id := (second.kinds id).trans (first.kinds id)

theorem supplied (same : SameFrame set later) (formed : later.WellFormed) : Supplied set later where
  hasClass id known := by rwa [HasClass, same.classCount]
  hasMethod m known := by rwa [HasMethod, same.methodCount]
  hasField f known := by rwa [HasField, same.fieldCount]
  classpath := same.classpath
  classAt id _ := same.classAt id
  methodAt m _ := same.methodAt m
  fieldAt f _ := same.fieldAt f
  kinds id _ := same.kinds id
  hidden id unknown := by
    rw [HasClass, ← same.classCount] at unknown
    rw [classAt_of_unknown unknown]
    rfl
  find? name id found := by
    rwa [find?_congr same.classCount fun id => congrArg (·.name) (same.classAt id)]
  provided name found := by
    rw [find?_congr same.classCount fun id => congrArg (·.name) (same.classAt id)] at found
    exact .inl found
  wellFormed := formed

theorem modifyMethod (set : ClassSet) (m : MethodId) (owners : MethodEntry → List ClassId) :
    SameFrame set (set.modifyMethod m fun e => { e with owners := owners e }) where
  classCount := rfl
  methodCount := Array.size_modify ..
  fieldCount := rfl
  classpath := rfl
  classAt _ := rfl
  methodAt := set.methodAt_modifyMethod_same (·.unowned)
    (f := fun e => { e with owners := owners e }) (fun _ => rfl) m
  fieldAt _ := rfl
  kinds _ := List.map_congr_left fun v _ => set.methodAt_modifyMethod_same
    (fun e => ((e.name, e.desc), e.access.isInheritable)) (f := fun e => { e with
      owners := owners e })
    (fun _ => rfl) m v

theorem modifyField (set : ClassSet) (f : FieldId) (owners : FieldEntry → List ClassId) :
    SameFrame set (set.modifyField f fun e => { e with owners := owners e }) where
  classCount := rfl
  methodCount := rfl
  fieldCount := Array.size_modify ..
  classpath := rfl
  classAt _ := rfl
  methodAt _ := rfl
  fieldAt := set.fieldAt_modifyField_same (·.unowned)
    (f := fun e => { e with owners := owners e }) (fun _ => rfl) f
  kinds _ := rfl

/-- A class shows a method in the place of one of the same kind. -/
theorem display {id : ClassId} {m replaced : MethodId} {place : Nat}
    (shown : (set.classAt id).view[place]? = some replaced)
    (same : set.kind replaced = set.kind m) :
    SameFrame set (set.modifyClass id fun c => { c with view := c.view.set place m }) where
  classCount := Array.size_modify ..
  methodCount := rfl
  fieldCount := rfl
  classpath := rfl
  classAt := set.classAt_modifyClass_same (·.unviewed)
    (f := fun c => { c with view := c.view.set place m }) (fun _ => rfl) id
  methodAt _ := rfl
  fieldAt _ := rfl
  kinds cls := by
    rcases Evolves.classAt_modifyClass_cases set id
      (fun c => { c with view := c.view.set place m }) cls with kept | ⟨rfl, changed⟩
    · rw [kept]
      rfl
    · rw [changed]
      change (List.set _ place m).map set.kind = _
      refine List.ext_getElem? fun index => ?_
      rw [List.map_set, List.getElem?_set]
      split
      · subst index
        rw [List.getElem?_map, shown]
        obtain ⟨inside, -⟩ := List.getElem?_eq_some_iff.1 shown
        rw [List.length_map, if_pos inside, Option.map_some, same]
      · rfl

end SameFrame

namespace Supplied

theorem refl (formed : set.WellFormed) : Supplied set set := (SameFrame.refl set).supplied formed

theorem trans (first : Supplied set later) (second : Supplied later latest) :
    Supplied set latest where
  hasClass id known := second.hasClass id (first.hasClass id known)
  hasMethod m known := second.hasMethod m (first.hasMethod m known)
  hasField f known := second.hasField f (first.hasField f known)
  classpath := second.classpath.trans first.classpath
  classAt id known := (second.classAt id (first.hasClass id known)).trans (first.classAt id known)
  methodAt m known := (second.methodAt m (first.hasMethod m known)).trans (first.methodAt m known)
  fieldAt f known := (second.fieldAt f (first.hasField f known)).trans (first.fieldAt f known)
  kinds id known := (second.kinds id (first.hasClass id known)).trans (first.kinds id known)
  hidden id unknown := by
    by_cases came : later.HasClass id
    · rw [← first.hidden id unknown]
      exact congrArg (·.hidden) (second.classAt id came)
    · exact second.hidden id came
  find? name id found := second.find? name id (first.find? name id found)
  provided name found := by
    rcases second.provided name found with found | found
    · exact first.provided name found
    · exact .inr (provided?_congr first.classpath name ▸ found)
  wellFormed := second.wellFormed

theorem kind (supplied : Supplied set later) {m : MethodId} (known : set.HasMethod m) :
    later.kind m = set.kind m := by
  have same := congrArg (fun e => ((e.name, e.desc), e.access.isInheritable))
    (supplied.methodAt m known)
  exact same

theorem supertypes (supplied : Supplied set later) {id : ClassId} (known : set.HasClass id) :
    (later.classAt id).supertypes = (set.classAt id).supertypes := by
  have same := congrArg (·.supertypes) (supplied.classAt id known)
  exact same

end Supplied

/-- A class has come in behind the others, and its members have come in behind theirs. -/
def Appended (set : ClassSet) (name : String) (hidden : Bool) (later : ClassSet) : Prop :=
  ∃ (c : ClassEntry) (methods : Array MethodEntry) (fields : Array FieldEntry), c.name = name ∧
    c.hidden = hidden ∧
    later = ⟨set.classes.push c, set.methods ++ methods, set.fields ++ fields, set.classpath⟩

theorem insert?_appends {file : ClassFile} {source : Option Bytes} {hidden : Bool}
    (inserted : set.insert? file source hidden = some later) :
    Appended set file.header.name hidden later := by
  have last (c : ClassEntry) (f : ClassEntry → ClassEntry) :
      (set.classes.push c).modify set.classes.size f = set.classes.push (f c) := by grind
  refine insert?_rule (P := Appended set file.header.name hidden) inserted ?_ ?_ ?_
  · exact ⟨{ file.header with hidden := hidden, modified := false, source := source }, #[],
      #[], rfl, rfl, by
      simp [addClass]⟩
  · rintro u f ⟨c, methods, fields, name, isHidden, rfl⟩
    refine ⟨{ c with fields := c.fields ++ [⟨(set.fields ++ fields).size⟩] }, methods, fields.push
      { f with declaredBy := set.nextClass, owners := [set.nextClass], hidden := hidden },
      name, isHidden, ?_⟩
    simp only [addField, modifyClass, nextClass, nextField, last, Array.append_push]
  · rintro u m _ ⟨c, methods, fields, name, isHidden, rfl⟩
    refine ⟨{ c with
        methods := c.methods ++ [⟨(set.methods ++ methods).size⟩]
        view := c.view ++ [⟨(set.methods ++ methods).size⟩] }, methods.push
      { m with declaredBy := set.nextClass, owners := [set.nextClass], hidden := hidden }, fields,
        name, isHidden, ?_⟩
    simp only [addMethod, modifyClass, nextClass, nextMethod, last, Array.append_push]

theorem Appended.untouched {name : String} {hidden : Bool}
    (appended : Appended set name hidden later) :
    Untouched set later := by
  obtain ⟨c, methods, fields, -, -, rfl⟩ := appended
  constructor
  · exact fun id known => set.classAt_addClass_of_known c known
  · exact fun m known => by rw [methodAt, methodAt, Array.getElem?_append_left known]
  · exact fun f known => by rw [fieldAt, fieldAt, Array.getElem?_append_left known]

theorem Appended.find?_eq {name : String} {hidden : Bool}
    (appended : Appended set name hidden later) (sought : String) :
    later.find? sought = (set.find? sought).or (if name = sought then some set.nextClass
      else none) := by
  obtain ⟨c, methods, fields, rfl, -, rfl⟩ := appended
  rw [find?, Array.findIdx?_push, find?, Option.map_or]
  congr 1
  simp only [beq_iff_eq]
  split <;> rfl

theorem Appended.supplied {name : String} (appended : Appended set name true later)
    (formed : set.WellFormed) (laterFormed : later.WellFormed)
    (listed : (set.provided? name).isSome) : Supplied set later := by
  have same := appended.untouched
  have search := appended.find?_eq
  obtain ⟨c, methods, fields, -, isHidden, later_eq⟩ := appended
  constructor
  case hasClass => exact fun id known => later_eq ▸ set.hasClass_addClass c known
  case hasMethod =>
    intro m known
    rw [later_eq, HasMethod, Array.size_append]
    exact Nat.lt_add_right _ known
  case hasField =>
    intro f known
    rw [later_eq, HasField, Array.size_append]
    exact Nat.lt_add_right _ known
  case classpath => rw [later_eq]
  case classAt => exact fun id known => by rw [same.classAt id known]
  case methodAt => exact fun m known => by rw [same.methodAt m known]
  case fieldAt => exact fun f known => by rw [same.fieldAt f known]
  case kinds =>
    intro id known
    rw [same.classAt id known]
    refine List.map_congr_left fun v member => ?_
    simp only [kind, signature, same.methodAt v (formed.views id v member)]
  case hidden =>
    intro id unknown
    rw [later_eq, ClassSet.classAt, Array.getElem?_push]
    split
    · exact isHidden
    · rw [Array.getElem?_eq_none (Nat.le_of_not_lt unknown)]
      rfl
  case find? => exact fun n id found => by rw [search, found, Option.some_or]
  case provided =>
    intro n found
    rw [search] at found
    by_cases isName : name = n
    · exact .inr (isName ▸ listed)
    · rw [if_neg isName, Option.or_none] at found
      exact .inl found
  case wellFormed => exact laterFormed

/-- A class that is loaded has been known or comes from the classpath. -/
theorem load_ok {name : String} {found : Option ClassId} (formed : set.WellFormed)
    (ran : (load name).run set = .ok found later) :
    Supplied set later ∧ Untouched set later ∧ later.find? name = found ∧
      (found = none → later = set ∧ set.onClasspath? name = .ok none) := by
  obtain ⟨_, _, got, ran⟩ := run_bind_ok ran
  cases got
  cases known : set.find? name with
  | some id =>
    rw [known] at ran
    cases ran
    exact ⟨.refl formed, .refl set, known, nofun⟩
  | none =>
    rw [known] at ran
    dsimp only at ran
    match provided : set.onClasspath? name with
    | .error file =>
      rw [provided] at ran
      cases ran
    | .ok none =>
      rw [provided] at ran
      cases ran
      exact ⟨.refl formed, .refl set, known, fun _ => ⟨rfl, rfl⟩⟩
    | .ok (some file) =>
      rw [provided] at ran
      dsimp only at ran
      split at ran
      · rename_i same
        cases inserted : set.insert? file none true with
        | none =>
          rw [inserted] at ran
          cases ran
        | some added =>
          rw [inserted] at ran
          cases ran
          have appended := insert?_appends inserted
          rw [same] at appended
          refine ⟨appended.supplied formed ((evolves_insert? inserted).wellFormed formed) ?_,
            appended.untouched, ?_, nofun⟩
          · rw [provided?_of_onClasspath? provided, Option.isSome_some]
          · rw [appended.find?_eq, known, if_pos rfl, Option.none_or]
      · cases ran

/-- The place in the view of a class where a method is shown instead of one that it overrides. -/
def place? (set : ClassSet) (m : MethodId) (id : ClassId) : Option Nat :=
  (set.classAt id).view.findIdx? fun v =>
    (set.methodAt v).hasSignature (set.methodAt m).name
      (set.methodAt m).desc && (set.methodAt v).access.isInheritable

theorem place?_eq (set : ClassSet) (m : MethodId) (id : ClassId) :
    set.place? m id = ((set.classAt id).view.map set.kind).findIdx?
      (· == (set.signature m, true)) := by
  rw [List.findIdx?_map, place?]
  congr 1
  funext v
  rw [Bool.eq_iff_iff]
  simp [kind, signature, MethodEntry.hasSignature, and_assoc]

theorem Supplied.place? (supplied : Supplied set later) {m : MethodId} {id : ClassId}
    (method : set.HasMethod m) (known : set.HasClass id) : later.place? m id = set.place? m id := by
  have signature : later.signature m = set.signature m := congrArg (·.1) (supplied.kind method)
  rw [place?_eq, place?_eq, supplied.kinds id known, signature]

/-- What stands in the place of a method has its signature, and subclasses inherit it. -/
theorem kind_of_place? {m shown : MethodId} {id : ClassId} {place : Nat}
    (found : set.place? m id = some place) (shows : (set.classAt id).view[place]? = some shown) :
    set.kind shown = (set.signature m, true) := by
  rw [place?_eq] at found
  obtain ⟨inside, same, -⟩ := List.findIdx?_eq_some_iff_getElem.1 found
  rwa [List.getElem_map, beq_iff_eq, (List.getElem?_eq_some_iff.1 shows).2] at same

/-- Showing an override leaves all as it is, or puts the method in its place. -/
theorem showOverride_cases (m : MethodId) (id : ClassId) (set : ClassSet) :
    showOverride m id set = set ∧
      (∀ place, set.place? m id = some place → (set.classAt id).view[place]? = some m) ∨
      ∃ place replaced, set.place? m id = some place ∧
        (set.classAt id).view[place]? = some replaced ∧ replaced ≠ m ∧ showOverride m id set =
          (set.modifyMethod m fun e => { e with
            owners := (set.methodAt replaced).owners.foldl
              (fun os o => insertAscending o os) e.owners }).modifyClass
              id fun c => { c with view := c.view.set place m } := by
  cases found : set.place? m id with
  | none =>
    rw [place?] at found
    refine .inl ⟨?_, nofun⟩
    simp only [showOverride, found]
  | some place =>
    have search := found
    rw [place?] at search
    obtain ⟨inside, -, -⟩ := List.findIdx?_eq_some_iff_getElem.1 search
    have shows := List.getElem?_eq_getElem inside
    by_cases same : (set.classAt id).view[place] = m
    · refine .inl ⟨?_, fun _ is => Option.some.inj is ▸ (shows.trans (congrArg some same))⟩
      simp only [showOverride, search, shows, if_pos same]
    · refine .inr ⟨place, _, rfl, shows, same, ?_⟩
      simp only [showOverride, search, shows, if_neg same]

/-- What stands in the places of views after an override has been shown. -/
theorem view_showOverride (m : MethodId) (id : ClassId) (set : ClassSet) (cls : ClassId)
    (place : Nat) :
    ((showOverride m id set).classAt cls).view[place]? =
      if cls = id ∧ set.place? m cls = some place then some m
        else (set.classAt cls).view[place]? := by
  obtain ⟨same, shown⟩ | ⟨here, replaced, found, shows, -, changed⟩ := showOverride_cases m id set
  · rw [same]
    split
    · rename_i here
      exact here.1 ▸ shown place (here.1 ▸ here.2)
    · rfl
  · rw [changed]
    by_cases same : cls = id
    · subst same
      have known : set.HasClass cls := by
        refine Classical.byContradiction fun unknown => ?_
        rw [classAt_of_unknown unknown] at shows
        cases shows
      rw [classAt_modifyClass_self _ _ (show HasClass (set.modifyMethod m _) cls from known)]
      change ((set.classAt cls).view.set here m)[place]? = _
      rw [List.getElem?_set, found]
      by_cases isHere : here = place
      · subst isHere
        rw [if_pos rfl, if_pos (List.getElem?_eq_some_iff.1 shows).1, if_pos ⟨rfl, rfl⟩]
      · rw [if_neg isHere, if_neg fun h => isHere (Option.some.inj h.2)]
    · rw [classAt_modifyClass_of_ne _ _ same, if_neg fun h => same h.1]
      rfl

theorem sameFrame_showOverride {m : MethodId} (inheritable : (set.methodAt m).access.isInheritable)
    (id : ClassId) :
    SameFrame set (showOverride m id set) := by
  obtain ⟨same, -⟩ | ⟨place, replaced, found, shows, -, changed⟩ := showOverride_cases m id set
  · rw [same]
    exact .refl set
  · have owned := SameFrame.modifyMethod set m fun e =>
      (set.methodAt replaced).owners.foldl (fun os o => insertAscending o os) e.owners
    rw [changed]
    refine owned.trans (.display shows ?_)
    have kinds (v : MethodId) :=
      congrArg (fun e => ((e.name, e.desc), e.access.isInheritable)) (owned.methodAt v)
    have own : set.kind m = (set.signature m, true) := congrArg _ inheritable
    exact (kinds replaced).trans
      ((kind_of_place? found shows).trans (own.symm.trans (kinds m).symm))

theorem sameFrame_inheritMembers (heir id : ClassId) (set : ClassSet) :
    SameFrame set (inheritMembers heir id set) := by
  have fields (fs : List FieldId) (set : ClassSet) : SameFrame set (fs.foldl (fun set f =>
      set.modifyField f fun e => { e with owners := insertAscending heir e.owners }) set) := by
    induction fs generalizing set with
    | nil => exact .refl set
    | cons f fs ih => exact (SameFrame.modifyField set f _).trans (ih _)
  have methods (ms : List MethodId) (set : ClassSet) : SameFrame set (ms.foldl (fun set m =>
      set.modifyMethod m fun e => { e with owners := insertAscending heir e.owners }) set) := by
    induction ms generalizing set with
    | nil => exact .refl set
    | cons m ms ih => exact (SameFrame.modifyMethod set m _).trans (ih _)
  exact (fields _ set).trans (methods _ _)

end ClassSet

end JvmPatch
