import JvmPatch.Proofs.Apply.Distinct
import JvmPatch.Proofs.ClassSet.Accuracy

/-! Scripts and the owners of members. An added member is owned by its class alone, and no other
change gives a member an owner. So owners go stale only where a script takes something from a class
that it had or inherited. -/

set_option autoImplicit false

namespace JvmPatch

namespace ClassSet

variable {set later latest : ClassSet} {lines : List FieldLine} {drops : MethodId → Prop}

namespace Carries

theorem removeMethod (standing : ∀ id, ∀ m ∈ (set.classAt id).view, set.Stands m) (id : MethodId) :
    Carries set (set.removeMethod id) := by
  refine of_subset standing (fun m => ⟨?_, ?_⟩) (fun _ => ⟨rfl, rfl⟩) (fun cls => ?_)
    (fun cls => ?_) (fun cls => ?_)
    fun shows m member cls listed => ?_
  · exact set.methodAt_modifyMethod_same (·.owners) (f := fun m => { m with hidden := true })
      (fun _ => rfl) id m
  · exact set.methodAt_modifyMethod_same (·.declaredBy) (f := fun m => { m with hidden := true })
      (fun _ => rfl) id m
  · exact ((Shrinks.removeMethod set id).methods cls).subset
  · exact ((Shrinks.removeMethod set id).fields cls).subset
  · rw [classAt_removeMethod]
    exact List.filter_sublist.subset
  · rw [classAt_removeMethod] at member ⊢
    exact List.mem_filter.2 ⟨listed, (List.mem_filter.1 member).2⟩

theorem removeField (standing : ∀ id, ∀ m ∈ (set.classAt id).view, set.Stands m) (id : FieldId) :
    Carries set (set.removeField id) := by
  have methods (cls : ClassId) := set.part_removeField (·.methods) (fun _ _ => rfl) id cls
  have views (cls : ClassId) := set.part_removeField (·.view) (fun _ _ => rfl) id cls
  refine of_subset standing (fun _ => ⟨rfl, rfl⟩) (fun f => ⟨?_, ?_⟩) (fun cls => ?_)
    (fun cls => ?_) (fun cls => ?_)
    fun _ m _ cls listed => (methods cls).symm ▸ listed
  · exact set.fieldAt_modifyField_same (·.owners) (f := fun f => { f with hidden := true })
      (fun _ => rfl) id f
  · exact set.fieldAt_modifyField_same (·.declaredBy) (f := fun f => { f with hidden := true })
      (fun _ => rfl) id f
  · exact ((Shrinks.removeField set id).methods cls).subset
  · exact ((Shrinks.removeField set id).fields cls).subset
  · exact (views cls).symm ▸ fun _ member => member

theorem mark (standing : ∀ id, ∀ m ∈ (set.classAt id).view, set.Stands m) (id : ClassId) :
    Carries set (set.mark id) :=
  .modifyClass standing id fun _ => ⟨rfl, rfl, rfl⟩

/-- A class is marked after something has happened in it. -/
theorem thenMark (carries : Carries set later) (formed : set.WellFormed)
    (evolves : Evolves .everything set later) (id : ClassId) : Carries set (later.mark id) :=
  carries.trans (.mark carries.standing id) (evolves.wellFormed formed) evolves
    (Declaration.evolves_mark _ _ id)

end Carries

theorem Declaration.carries (step : Declaration lines drops set later) (formed : set.WellFormed)
    (standing : ∀ id, ∀ m ∈ (set.classAt id).view, set.Stands m) : Carries set later := by
  cases step with
  | addClass name kind => exact .addClass standing rfl rfl rfl
  | header id f _ lists => exact .modifyClass standing id lists
  | addField id name desc =>
    exact (Carries.addField standing id _ false).thenMark formed (.addField trivial set _ false) id
  | removeField id =>
    exact (Carries.removeField standing id).thenMark formed (.removeField set trivial) _
  | addMethod id block name desc =>
    exact (Carries.addMethod standing formed id _ false).thenMark formed
      (.addMethod trivial set _ false) id
  | removeMethod id =>
    exact (Carries.removeMethod standing id).thenMark formed
      (.removeMethod set fun _ _ => ⟨trivial, trivial⟩) _
  | rewriteAccess id block =>
    have rewritten : Carries set (set.modifyMethod id fun m =>
        { m with access := block.accessOver (set.methodAt id).access }) :=
          .modifyMethod standing id fun _ => ⟨rfl, rfl⟩
    refine rewritten.thenMark formed (.modifyMethod ?_ (.inr trivial) (.inl ?_) set) _
    · exact fun m => ⟨rfl, rfl, rfl, rfl⟩
    · exact fun m => rfl

theorem Declaration.Steps.carries (steps : Declaration.Steps lines drops set later)
    (formed : set.WellFormed) (standing : ∀ id, ∀ m ∈ (set.classAt id).view, set.Stands m) :
    Carries set later := by
  induction steps with
  | refl => exact .refl standing
  | tail before step ih =>
    have evolves := Declaration.Steps.evolves before
    have formed := evolves.wellFormed formed
    exact ih.trans (step.carries formed ih.standing) formed evolves step.evolves

end ClassSet

open ClassSet

theorem BodyEdited.carries {s t : ApplyState} {p : PendingBody} (one : BodyEdited s p t)
    (formed : s.classes.WellFormed)
    (standing : ∀ id, ∀ m ∈ (s.classes.classAt id).view, s.classes.Stands m) :
    Carries s.classes t.classes := by
  cases one with
  | idle => exact .refl standing
  | build => exact .modifyMethod standing _ fun _ => ⟨rfl, rfl⟩
  | @change _ _ body _ _ code _ edit =>
    have built : Carries s.classes (s.classes.modifyMethod body fun m => { m with
        code := some (edit.apply code) }) :=
      .modifyMethod standing body fun _ => ⟨rfl, rfl⟩
    refine built.thenMark formed (.modifyMethod ?_ (.inl ?_) (.inr trivial) _) _
    · exact fun m => ⟨rfl, rfl, rfl, rfl⟩
    · exact fun m => rfl

theorem BodiesEdited.carries {s : ApplyState} {pending : List PendingBody} {later : ClassSet}
    (edits : BodiesEdited s pending later) (formed : s.classes.WellFormed)
    (standing : ∀ id, ∀ m ∈ (s.classes.classAt id).view, s.classes.Stands m) :
    Carries s.classes later := by
  induction edits with
  | stop => exact .refl standing
  | step one rest ih =>
    have first := one.carries formed standing
    have formed := one.evolves.wellFormed formed
    exact first.trans (ih formed first.standing) formed one.evolves rest.evolves

namespace ClassSet

variable {set : ClassSet}

theorem carries_afterApply {script : Script} {r : Resolution} (accurate : set.Accurate)
    (full : set.FullAssignment script r.assignment) : Carries set (set.afterApply script r) := by
  have formed := accurate.wellFormed
  rcases afterApply_steps formed full with
    ⟨s, e, -, declaring, same⟩ | ⟨applied, s, -, declaring, edits⟩
  · rw [same]
    exact declaring.steps.carries formed accurate.standing
  · have declared := declaring.steps.carries formed accurate.standing
    have evolves := declaring.steps.evolves
    have formed := evolves.wellFormed formed
    exact declared.trans (edits.carries formed declared.standing) formed evolves edits.evolves

theorem Attained.accurate {files : ClassFile → Prop}
    (attained : Attained files (fun set script r => Retains set (set.afterApply script r)) set) :
    set.Accurate := by
  induction attained with
  | empty classpath => exact .empty classpath
  | insert _ _ inserted ih => exact ih.insert? inserted
  | load name _ ih => exact preserves_iff.1 (Accurate.loads name) _ ih
  | shareInherited _ ih => exact ih.shareInherited
  | loadMentioned _ ih => exact preserves_iff.1 Accurate.loadsMentioned _ ih
  | apply _ accepted retains ih =>
    have full := (firstAccepted_of_resolve accepted).full
    exact ih.carried (evolves_afterApply ih.wellFormed full) retains (carries_afterApply ih full)

/-- In all class sets that a run comes to, the classes through which a member is reached declare or
inherit a member of its name and descriptor, unless a script has taken such a member from a
class. -/
theorem attained_owners {files : ClassFile → Prop}
    (attained : Attained files (fun set script r => Retains set (set.afterApply script r)) set) :
    (∀ m, set.Stands m → ∀ o ∈ (set.methodAt m).owners, set.Offers o (set.signature m)) ∧
      ∀ f, set.StandsField f → ∀ o ∈ (set.fieldAt f).owners,
        set.OffersField o (set.fieldSignature f) :=
  ⟨attained.accurate.methods, attained.accurate.fields⟩

/-- An interface with a method `run` that has given owners, and a class with given interfaces and
fields. -/
def bequest (interfaces : List String) (owners : List ClassId) (fields : List FieldId)
    (modified : Bool) : ClassSet :=
  { classes := #[
      { ClassEntry.fresh "p/I" none 1537 with
        methods := [⟨0⟩], view := [⟨0⟩], modified := false },
      { ClassEntry.fresh "p/C" none 33 with
        interfaces := interfaces, fields := fields, modified := modified }]
    methods := #[⟨⟨"run", "()V", 1, [], some { insns := [.simple Opcode.voidReturn] }⟩, ⟨0⟩,
      owners, false⟩]
    fields := (fields.map fun _ => ⟨⟨"x", "I", 1, none⟩, ⟨1⟩, [⟨1⟩], false⟩).toArray }

def bequestScript (interfaces : List SupertypeLine) (fields : List FieldLine) : Script :=
  ⟨[⟨.keep, .ordinary, ⟨"p/C", false⟩, 1, [], interfaces, fields, []⟩]⟩

def bequestFound (fields : List (Option FieldId)) : Resolution := ⟨{}, [⟨some ⟨1⟩, fields, []⟩]⟩

def bequestField : FieldLine := ⟨.add, ⟨"x", false⟩, "I", ⟨0, .int⟩, false, false, none, 2⟩

theorem candidates_bequest (interfaces : List String) (owners : List ClassId)
    (fields : List FieldId) (modified : Bool) :
    (bequest interfaces owners fields modified).candidates = [⟨1⟩, ⟨0⟩] :=
  candidates_of_sorted (.swap _ _ _) (show ["p/C", "p/I"].Pairwise (compare · · = .lt) by decide)

/-- The class becomes an owner of the method that it inherits. -/
theorem attained_bequest (scripts : ClassSet → Script → Resolution → Prop) :
    Attained (fun _ => True) scripts (bequest ["p/I"] [⟨0⟩, ⟨1⟩] [] false) := by
  have inserted : bequest ["p/I"] [⟨0⟩] [] false =
      ofFiles [⟨⟨"p/I", none, [], 1537, 50, 0, none⟩, [],
        [⟨"run", "()V", 1, [], some { insns := [.simple Opcode.voidReturn] }⟩]⟩,
    ⟨⟨"p/C", none, ["p/I"], 33, 50, 0, none⟩, [], []⟩] := by with_unfolding_all decide
  have start : Attained (fun _ => True) scripts (bequest ["p/I"] [⟨0⟩] [] false) := by
    rw [inserted]
    exact ofFiles_rule (.empty []) (fun _ _ _ before inserted => .insert before trivial inserted) _
  have shared : shareInherited.run (bequest ["p/I"] [⟨0⟩] [] false) =
      .ok ⟨⟩ (bequest ["p/I"] [⟨0⟩, ⟨1⟩] [] false) := by
    rw [shareInherited_of_candidates (candidates_bequest _ _ _ _)]
    with_unfolding_all decide
  exact leftBy_ok shared ▸ .shareInherited start

theorem retains_bequest (interfaces : List String) (owners : List ClassId) :
    Retains (bequest interfaces owners [] false) (bequest interfaces owners [⟨0⟩] true) := by
  have outside (fields : List FieldId) (modified : Bool) (i : Nat) :
      (bequest interfaces owners fields modified).classAt ⟨i + 2⟩ = default :=
    classAt_of_unknown (by simp [HasClass, bequest])
  have names (id : ClassId) : ((bequest interfaces owners [⟨0⟩] true).classAt id).name =
      ((bequest interfaces owners [] false).classAt id).name := by
    obtain ⟨_ | _ | i⟩ := id
    · rfl
    · rfl
    · rw [outside, outside]
  have sizes : (bequest interfaces owners [⟨0⟩] true).classes.size =
    (bequest interfaces owners [] false).classes.size := rfl
  refine Climbs.retains ⟨fun name id found => (find?_congr sizes names name).trans found, ?_⟩ ?_ ?_
  · rintro ⟨_ | _ | i⟩
    · exact fun _ member => member
    · exact fun _ member => member
    · rw [outside, outside]
      exact fun _ member => member
  · rintro ⟨_ | _ | i⟩ m member
    · exact ⟨member, rfl⟩
    · exact ⟨member, rfl⟩
    · rw [outside] at member
      cases member
  · rintro ⟨_ | _ | i⟩ f member
    · cases member
    · cases member
    · rw [outside] at member
      cases member

theorem attained_owners_bequest :
    Attained (fun _ => True) (fun set script r => Retains set (set.afterApply script r))
        (bequest ["p/I"] [⟨0⟩, ⟨1⟩] [⟨0⟩] true) ∧
      (bequest ["p/I"] [⟨0⟩, ⟨1⟩] [⟨0⟩] true).Offers ⟨1⟩ ("run", "()V") ∧
      (bequest ["p/I"] [⟨0⟩, ⟨1⟩] [⟨0⟩] true).OffersField ⟨1⟩ ("x", "I") := by
  have accepted : (bequest ["p/I"] [⟨0⟩, ⟨1⟩] [] false).resolve (bequestScript [] [bequestField]) {}
      ((bequest ["p/I"] [⟨0⟩, ⟨1⟩] [] false).verify (bequestScript [] [bequestField])) {} =
        .ok (bequestFound [none]) :=
    resolve_of_candidates (candidates_bequest _ _ _ _) (by decide) (by decide)
  have applied : (bequest ["p/I"] [⟨0⟩, ⟨1⟩] [] false).afterApply (bequestScript [] [bequestField])
      (bequestFound [none]) =
      bequest ["p/I"] [⟨0⟩, ⟨1⟩] [⟨0⟩] true := by decide
  have shared : shareInherited.run (bequest ["p/I"] [⟨0⟩, ⟨1⟩] [⟨0⟩] true) =
      .ok ⟨⟩ (bequest ["p/I"] [⟨0⟩, ⟨1⟩] [⟨0⟩] true) := by
    rw [shareInherited_of_candidates (candidates_bequest _ _ _ _)]
    with_unfolding_all decide
  have attained : Attained (fun _ => True)
    (fun set script r => Retains set (set.afterApply script r))
      (bequest ["p/I"] [⟨0⟩, ⟨1⟩] [⟨0⟩] true) := by
    refine leftBy_ok shared ▸ .shareInherited (applied ▸ .apply (attained_bequest _) accepted ?_)
    rw [applied]
    exact retains_bequest ["p/I"] [⟨0⟩, ⟨1⟩]
  obtain ⟨methods, fields⟩ := attained_owners attained
  exact ⟨attained, methods ⟨0⟩ (by decide) ⟨1⟩ (by decide), fields ⟨0⟩ (by decide) ⟨1⟩ (by decide)⟩

/-- A class is still an owner of a method after the interface from which it inherited the method has
been taken away and inheritance has been worked out again. -/
theorem attained_owners_stale :
    ∃ before set, Attained (fun _ => True) (fun _ _ _ => True) before ∧
      shareInherited.run before = .ok ⟨⟩ set ∧
      ∃ m, set.Stands m ∧ ∃ o ∈ (set.methodAt m).owners, ¬set.Offers o (set.signature m) := by
  have accepted : (bequest ["p/I"] [⟨0⟩, ⟨1⟩] [] false).resolve
    (bequestScript [⟨.remove, ⟨"p/I", false⟩⟩] []) {}
      ((bequest ["p/I"] [⟨0⟩, ⟨1⟩] [] false).verify (bequestScript [⟨.remove, ⟨"p/I", false⟩⟩] []))
        {} = .ok (bequestFound []) :=
    resolve_of_candidates (candidates_bequest _ _ _ _) (by decide) (by decide)
  have applied : (bequest ["p/I"] [⟨0⟩, ⟨1⟩] [] false).afterApply
    (bequestScript [⟨.remove, ⟨"p/I", false⟩⟩] [])
      (bequestFound []) = bequest [] [⟨0⟩, ⟨1⟩] [] true := by decide
  have shared : shareInherited.run (bequest [] [⟨0⟩, ⟨1⟩] [] true) =
      .ok ⟨⟩ (bequest [] [⟨0⟩, ⟨1⟩] [] true) := by
    rw [shareInherited_of_candidates (candidates_bequest _ _ _ _)]
    decide
  refine ⟨_, _, applied ▸ .apply (attained_bequest _) accepted trivial, shared,
    ⟨0⟩, by decide, ⟨1⟩, by decide, ?_⟩
  rintro ⟨id, rfl | ⟨name, reached, -⟩, m, member, -⟩
  · cases member
  · -- Nothing can be reached without supertypes.
    induction reached with
    | named start => cases start
    | above _ _ _ _ ih => exact ih

end ClassSet

end JvmPatch
