import JvmPatch.Proofs.Agreement
import JvmPatch.Proofs.Renumbering.Editing

/-! Making class sets ready that differ in numbers only. Candidates are gone through in the order of
their names and supertypes are named, so classes are taken from the classpath in one order for both
sets. -/

set_option autoImplicit false

namespace JvmPatch.ClassSet.Renumbered

variable {ρ : Renumbering} {set other : ClassSet}

theorem load (ρ : Renumbering) (name : String) :
    Agree (Renumbered ρ) (fun x y => y = x.map ρ.cls) (ClassSet.load name)
      (ClassSet.load name) := by
  refine .get fun set other same => ?_
  have listed : other.onClasspath? name = set.onClasspath? name := by
    rw [ClassSet.onClasspath?, ClassSet.onClasspath?, same.classpath]
  rw [same.find?, listed]
  cases set.find? name with
  | some id => exact .ok rfl same
  | none =>
    cases set.onClasspath? name with
    | error _ => exact .error same
    | ok found =>
      cases found with
      | none => exact .ok rfl same
      | some file =>
        dsimp only [Option.map_none]
        split
        · have inserted := same.insert? file none true
          rw [← same.nextClass]
          revert inserted
          cases set.insert? file none true <;> cases other.insert? file none true <;>
            intro inserted <;> cases inserted
          · exact .error same
          · exact .ok rfl ‹_›
        · exact .error same

theorem loadAncestor (origin : ClassId) (name : String) :
    Agree (Renumbered ρ) (fun x y => y = x.map ρ.cls) (ClassSet.loadAncestor origin name)
      (ClassSet.loadAncestor (ρ.cls origin) name) := by
  refine (load ρ name).bind fun found found' isFound => ?_
  subst isFound
  cases found with
  | some id => exact .pure rfl
  | none =>
    dsimp only [Option.map_none]
    split
    · exact .pure rfl
    · refine .get fun set other same => ?_
      rw [same.name]
      exact .error same

/-- The walks enter the same names if their steps keep the relation, which can hold of more than the
numbers. -/
theorem forAncestors {R : ClassSet → ClassSet → Prop} (renumbered : ∀ u v, R u v → Renumbered ρ u v)
    {step step' : ClassId → ClassSet → ClassSet}
    (steps : ∀ id u v, R u v → R (step id u) (step' (ρ.cls id) v)) {origin : ClassId}
    (loads : ∀ name, Agree R (fun x y => y = x.map ρ.cls) (ClassSet.loadAncestor origin name)
      (ClassSet.loadAncestor (ρ.cls origin) name)) (fuel : Nat) :
    ∀ entered names, Agree R
      (fun x y => y = x) (ClassSet.forAncestors step origin fuel entered names)
      (ClassSet.forAncestors step' (ρ.cls origin) fuel entered names) := by
  induction fuel with
  | zero => exact fun entered names => .pure rfl
  | succ fuel ih =>
    intro entered names
    refine .foldlM (forall₂_eq names) (fun a b x y same sameName => ?_) rfl
    subst same sameName
    split
    · exact .pure rfl
    · refine (loads y).bind fun found found' isFound => ?_
      subst isFound
      cases found with
      | none => exact .pure rfl
      | some id =>
        refine (Agree.modify (steps id)).bind fun _ _ _ => .read fun u v same => ?_
        rw [(renumbered u v same).supertypes]
        exact ih (y :: b) _

/-- The same classes become owners of a method in both sets. -/
theorem grant (same : Renumbered ρ set other) (m : MethodId) {heirs heirs' : List ClassId}
    (alike : ∀ o, ρ.cls o ∈ heirs' ↔ o ∈ heirs) :
    Renumbered ρ
      (set.modifyMethod m fun e => { e with
        owners := heirs.foldl (fun os o => insertAscending o os) e.owners })
      (other.modifyMethod (ρ.method m) fun e =>
        { e with owners := heirs'.foldl (fun os o => insertAscending o os) e.owners }) := by
  refine same.modifyMethod m (fun entry => ⟨entry.decl, entry.hidden, fun o => ?_⟩) ?_
    (.modifyMethod ?_ ?_ ?_ set)
  · rw [mem_foldl_insertAscending, mem_foldl_insertAscending, alike, entry.owners]
  · exact fun e => ⟨rfl, rfl⟩
  · exact fun e => ⟨rfl, rfl, rfl, rfl⟩
  · exact .inl fun e => rfl
  · exact .inl fun e => rfl

/-- A class becomes an owner of a field in both sets. -/
theorem grantField (same : Renumbered ρ set other) (f : FieldId) (heir : ClassId) :
    Renumbered ρ (set.modifyField f fun e => { e with owners := insertAscending heir e.owners })
      (other.modifyField (ρ.field f) fun e => { e with
        owners := insertAscending (ρ.cls heir) e.owners }) := by
  refine same.modifyField f (fun entry => ⟨entry.decl, entry.hidden, fun o => ?_⟩) ?_
    (.modifyField ?_ ?_ _ set f)
  · rw [mem_insertAscending, mem_insertAscending, ρ.cls.injective.eq_iff, entry.owners]
  · exact fun e => ⟨rfl, rfl⟩
  · exact fun e => rfl
  · exact fun e => rfl

/-- A method is shown in the same place in both views. -/
theorem showOverride (same : Renumbered ρ set other) {m : MethodId} (known : set.HasMethod m)
    (id : ClassId) :
    Renumbered ρ (ClassSet.showOverride m id set)
      (ClassSet.showOverride (ρ.method m) (ρ.cls id) other) := by
  have places : (other.classAt (ρ.cls id)).view.findIdx? (fun v =>
        (other.methodAt v).hasSignature (set.methodAt m).name
          (set.methodAt m).desc && (other.methodAt v).access.isInheritable) =
      (set.classAt id).view.findIdx? fun v =>
        (set.methodAt v).hasSignature (set.methodAt m).name
          (set.methodAt m).desc && (set.methodAt v).access.isInheritable := by
    rw [same.classAt, ClassEntry.renumber, List.findIdx?_map]
    refine congrArg (fun p => List.findIdx? p _) (funext fun v => ?_)
    simp only [Function.comp_apply, same.hasSignature, same.methodAccess]
  unfold ClassSet.showOverride
  dsimp only
  rw [same.methodName, same.methodDesc, places]
  split
  · exact same
  rename_i place _
  rw [same.classAt, ClassEntry.renumber, List.getElem?_map]
  cases (set.classAt id).view[place]? with
  | none => exact same
  | some replaced =>
    dsimp only [Option.map_some]
    by_cases itself : replaced = m
    · rw [if_pos itself, if_pos (congrArg ρ.method itself)]
      exact same
    · rw [if_neg itself, if_neg fun is => itself (ρ.method.injective is)]
      refine (same.grant m (same.methodAt replaced).owners).modifyClass id ?_
        (.modifyClass_of_sameLists _ _ id ?_ ?_)
      · simp only [ClassEntry.renumber, List.map_set]
      · exact fun c => ⟨rfl, rfl, rfl⟩
      · intro c x member
        rcases List.mem_or_eq_of_mem_set member with old | rfl
        · exact .inl old
        · exact .inr ((set.hasMethod_modifyMethod x x _).2 known)

/-- A class becomes an owner of the same members in both sets. -/
theorem inheritMembers (same : Renumbered ρ set other) (heir id : ClassId) :
    Renumbered ρ (ClassSet.inheritMembers heir id set)
      (ClassSet.inheritMembers (ρ.cls heir) (ρ.cls id) other) := by
  have fields (fs : List FieldId) : ∀ {u v : ClassSet}, Renumbered ρ u v →
      Renumbered ρ
        (fs.foldl (fun u f => u.modifyField f fun e => { e with
          owners := insertAscending heir e.owners }) u)
        ((fs.map ρ.field).foldl
          (fun v f => v.modifyField f fun e => { e with
            owners := insertAscending (ρ.cls heir) e.owners }) v) := by
    induction fs with
    | nil => exact fun alike => alike
    | cons f fs ih => exact fun alike => ih (alike.grantField f heir)
  have methods (ms : List MethodId) : ∀ {u v : ClassSet}, Renumbered ρ u v →
      Renumbered ρ
        (ms.foldl (fun u m => u.modifyMethod m fun e => { e with
          owners := insertAscending heir e.owners }) u)
        ((ms.map ρ.method).foldl
          (fun v m => v.modifyMethod m fun e => { e with
            owners := insertAscending (ρ.cls heir) e.owners }) v) := by
    induction ms with
    | nil => exact fun alike => alike
    | cons m ms ih =>
      have heirs (o : ClassId) : ρ.cls o ∈ [ρ.cls heir] ↔ o ∈ [heir] := by
        simp [ρ.cls.injective.eq_iff]
      intro u v alike
      exact ih (alike.grant m heirs)
  have heirFields : (other.classAt (ρ.cls id)).fields.filter (fun f =>
        !(other.fieldAt f).hidden && (other.fieldAt f).access.isInheritable) =
      ((set.classAt id).fields.filter fun f =>
        !(set.fieldAt f).hidden && (set.fieldAt f).access.isInheritable).map ρ.field := by
    rw [same.classAt, ClassEntry.renumber, List.filter_map]
    refine congrArg _ (List.filter_congr fun f _ => ?_)
    simp only [Function.comp_apply, (same.fieldAt f).hidden, same.fieldAccess]
  have heirMethods : (other.classAt (ρ.cls id)).view.filter (fun m =>
        !(other.methodAt m).hidden && (other.methodAt m).access.isInheritable) =
      ((set.classAt id).view.filter fun m =>
        !(set.methodAt m).hidden && (set.methodAt m).access.isInheritable).map ρ.method := by
    rw [same.classAt, ClassEntry.renumber, List.filter_map]
    refine congrArg _ (List.filter_congr fun m _ => ?_)
    simp only [Function.comp_apply, (same.methodAt m).hidden, same.methodAccess]
  unfold ClassSet.inheritMembers
  dsimp only
  rw [heirFields, heirMethods]
  exact methods _ (fields _ same)

theorem depthBound (same : Renumbered ρ set other) : other.depthBound = set.depthBound := by
  rw [ClassSet.depthBound, ClassSet.depthBound, same.classCount, same.classpath]

theorem inheritableMethods (same : Renumbered ρ set other) (id : ClassId) :
    other.inheritableMethods (ρ.cls id) = (set.inheritableMethods id).map ρ.method := by
  rw [ClassSet.inheritableMethods, ClassSet.inheritableMethods, same.classAt, ClassEntry.renumber,
    List.filter_map]
  refine congrArg _ (List.filter_congr fun m _ => ?_)
  simp only [Function.comp_apply, (same.methodAt m).hidden, same.methodAccess]

theorem showOverrides (ρ : Renumbering) (id : ClassId) :
    Agree (Renumbered ρ) (fun _ _ => True) (ClassSet.showOverrides id)
      (ClassSet.showOverrides (ρ.cls id)) := by
  refine .get fun set other same => ?_
  let Onward (u v : ClassSet) : Prop := Renumbered ρ u v ∧ Evolves .everything set u
  have loads (name : String) :
      Agree Onward (fun x y => y = x.map ρ.cls) (ClassSet.loadAncestor id name)
      (ClassSet.loadAncestor (ρ.cls id) name) := by
    refine (loadAncestor id name).and_preserves (preserves_iff.2 fun u evolves => ?_)
    exact evolves.trans (evolves_leftBy (.loadAncestor u id name))
  have shows : Agree Onward (fun _ _ => True)
      ((set.inheritableMethods id).forM fun m => do
        let u ← get
        let _ ← ClassSet.forAncestors (ClassSet.showOverride m) id u.depthBound []
          (u.classAt id).supertypes)
      ((other.inheritableMethods (ρ.cls id)).forM fun m => do
        let v ← get
        let _ ← ClassSet.forAncestors (ClassSet.showOverride m) (ρ.cls id) v.depthBound []
          (v.classAt (ρ.cls id)).supertypes) := by
    rw [same.inheritableMethods]
    refine .forM (forall₂_map_of_mem _) fun m m' is => .read fun u v onward => ?_
    obtain ⟨member, rfl⟩ := is
    have known : set.HasMethod m := (same.formed.methods id m (List.mem_filter.1 member).1).1
    rw [onward.1.supertypes, onward.1.depthBound]
    refine (forAncestors (fun _ _ h => h.1) (fun cls x y h => ⟨?_, ?_⟩) loads _ _ _).bind
      fun _ _ _ => .pure trivial
    · exact h.1.showOverride (h.2.hasMethod m known) cls
    · exact h.2.trans (evolves_showOverride (h.2.hasMethod m known) cls)
  rcases (shows set other ⟨same, .refl _ set⟩).cases with
    ⟨_, _, u, v, ran, ran', -, states⟩ | ⟨e, u, v, ran, ran', states⟩
  · rw [ran, ran']
    exact .ok trivial states.1
  · rw [ran, ran']
    exact .error states.1

theorem inheritAll (ρ : Renumbering) (id : ClassId) :
    Agree (Renumbered ρ) (fun _ _ => True) (ClassSet.inheritAll id)
      (ClassSet.inheritAll (ρ.cls id)) := by
  refine (Agree.modify fun u v same => same.inheritMembers id id).bind fun _ _ _ =>
    .read fun u v same => ?_
  dsimp only
  rw [same.name, same.supertypes, same.depthBound]
  refine (forAncestors (fun _ _ h => h) (fun cls u v h => h.inheritMembers id cls)
    (loadAncestor id) _ _ _).bind ?_
  exact fun _ _ _ => .pure trivial

theorem shareInherited (ρ : Renumbering) :
    Agree (Renumbered ρ) (fun _ _ => True) ClassSet.shareInherited ClassSet.shareInherited := by
  refine .read fun u v same => ?_
  have roots : (v.candidates.filter fun id => !(v.classAt id).isExternal) =
      (u.candidates.filter fun id => !(u.classAt id).isExternal).map ρ.cls := by
    rw [same.candidates, List.filter_map]
    refine congrArg _ (List.filter_congr fun id _ => ?_)
    simp only [Function.comp_apply, same.classAt, ClassEntry.renumber]
  rw [roots]
  refine (Agree.forM (forall₂_map _) fun id id' is => ?_).bind fun _ _ _ =>
    Agree.forM (forall₂_map _) fun id id' is => ?_
  · exact is ▸ showOverrides ρ id
  · exact is ▸ inheritAll ρ id

/-- A class that cannot be had leaves everything as it is. -/
theorem missing_of_load {name : String} {later : ClassSet}
    (ran : (ClassSet.load name).run set = .ok none later) :
    later = set ∧ set.find? name = none := by
  obtain ⟨_, s, read, ran⟩ := run_bind_ok ran
  cases read
  cases known : set.find? name with
  | some id =>
    rw [known] at ran
    cases ran
  | none =>
    rw [known] at ran
    dsimp only at ran
    split at ran
    · cases ran
    · cases ran
      exact ⟨rfl, rfl⟩
    · split at ran
      · split at ran <;> cases ran
      · cases ran

theorem loadOrStub (ρ : Renumbering) (name : String) :
    Agree (Renumbered ρ) (fun x y => y = x) (ClassSet.loadOrStub name)
      (ClassSet.loadOrStub name) := by
  refine .get fun set other same => ?_
  rw [same.find?, Option.isSome_map]
  split
  · exact .ok rfl same
  rcases (load ρ name set other same).cases with
    ⟨found, _, u, v, ran, ran', rfl, states⟩ | ⟨e, u, v, ran, ran', states⟩
  · rw [EStateM.run_bind, EStateM.run_bind, ran, ran']
    cases found with
    | some id => exact .ok (states.supertypes id) states
    | none =>
      obtain ⟨rfl, isNew⟩ := missing_of_load ran
      exact .ok rfl (states.addClass rfl rfl rfl isNew)
  · rw [EStateM.run_bind, EStateM.run_bind, ran, ran']
    exact .error states

theorem loadLevel (ρ : Renumbering) (names : List String) :
    Agree (Renumbered ρ) (fun x y => y = x) (ClassSet.loadLevel names)
      (ClassSet.loadLevel names) := by
  induction names with
  | nil => exact .pure rfl
  | cons name names ih =>
    refine (loadOrStub ρ name).bind fun found found' isFound =>
      ih.bind fun rest rest' isRest => .pure ?_
    rw [isFound, isRest]

theorem loadLevels (ρ : Renumbering) (fuel : Nat) (names : List String) :
    Agree (Renumbered ρ) (fun _ _ => True) (ClassSet.loadLevels fuel names)
      (ClassSet.loadLevels fuel names) := by
  induction fuel generalizing names with
  | zero => exact .pure trivial
  | succ fuel ih => exact (loadLevel ρ names).bind fun next next' isNext => isNext ▸ ih next

theorem loadMentioned (ρ : Renumbering) :
    Agree (Renumbered ρ) (fun _ _ => True) ClassSet.loadMentioned ClassSet.loadMentioned := by
  refine .read fun u v same => ?_
  have names : v.candidates.flatMap v.mentioned = u.candidates.flatMap u.mentioned := by
    rw [same.candidates, List.flatMap_map]
    exact congrArg (fun f => List.flatMap f _) (funext same.mentioned)
  rw [names, same.classpath]
  exact loadLevels ρ _ _

/-- Class sets that differ in numbers only are made ready alike. -/
theorem prepare (ρ : Renumbering) :
    Agree (Renumbered ρ) (fun _ _ => True) ClassSet.prepare ClassSet.prepare :=
  (shareInherited ρ).bind fun _ _ _ => loadMentioned ρ

end JvmPatch.ClassSet.Renumbered
