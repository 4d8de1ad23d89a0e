import JvmPatch.Proofs.Apply.Transitions
import JvmPatch.Proofs.ClassSet.Provision

/-! Whether inheritance can be worked out in the class sets that runs come to. A stub that has been
made for a name is a known class, so an ancestor that nobody provides is not missed any more once
something has mentioned it. -/

set_option autoImplicit false

namespace JvmPatch

namespace ClassSet

variable {set later : ClassSet} {lines : List FieldLine} {drops : MethodId → Prop}

namespace Orderly

theorem mark (orderly : set.Orderly) (id : ClassId) : (set.mark id).Orderly :=
  orderly.modifyClass (f := fun c => { c with modified := true }) (fun _ => rfl) id

theorem declaration (orderly : set.Orderly)
    (step : Declaration lines drops set later) : later.Orderly := by
  cases step with
  | addClass name kind free => exact orderly.addClass free nofun
  | header id f same lists source sight =>
    refine orderly.modifyClass (fun c => ?_) id
    rw [ClassEntry.tag, (same c).1, (sight c).1, (sight c).2, ClassEntry.tag]
  | addField id name desc => exact (orderly.addField id _ false).mark id
  | removeField id => exact (orderly.removeField id).mark _
  | addMethod id block name desc => exact (orderly.addMethod id _ false).mark id
  | removeMethod id => exact (orderly.removeMethod id).mark _
  | rewriteAccess id block => exact (orderly.modifyMethod id _).mark _

theorem declarations (orderly : set.Orderly)
    (steps : Declaration.Steps lines drops set later) : later.Orderly := by
  induction steps with
  | refl => exact orderly
  | tail _ step ih => exact ih.declaration step

theorem edits {s : ApplyState} {pending : List PendingBody} (orderly : s.classes.Orderly)
    (edits : BodiesEdited s pending later) : later.Orderly := by
  induction edits with
  | stop => exact orderly
  | step one _ ih =>
    cases one with
    | idle => exact ih orderly
    | build => exact ih (orderly.modifyMethod _ _)
    | change => exact ih ((orderly.modifyMethod _ _).mark _)

/-- Stubs are hidden, so what a script can match is no stub. -/
theorem roots (orderly : set.Orderly) : set.roots = set.candidates := by
  refine List.filter_eq_self.2 fun id member => ?_
  rw [candidates, List.mem_mergeSort] at member
  have seen := (List.mem_filter.1 member).2
  cases stub : (set.classAt id).isExternal with
  | false => rfl
  | true =>
    rw [isCandidate, orderly.stubs id stub] at seen
    cases seen

end Orderly

variable {files : ClassFile → Prop} {scripts : ClassSet → Script → Resolution → Prop}

theorem Attained.orderly (attained : Attained files scripts set) : set.Orderly := by
  induction attained with
  | empty classpath => exact .empty classpath
  | insert _ _ inserted ih => exact ih.insert? inserted
  | load name _ ih => exact preserves_iff.1 (Orderly.loads name) _ ih
  | shareInherited _ ih => exact preserves_iff.1 Orderly.shares _ ih
  | loadMentioned _ ih => exact preserves_iff.1 Orderly.loadsMentioned _ ih
  | apply before accepted _ ih =>
    rcases afterApply_steps before.wellFormed (firstAccepted_of_resolve accepted).full with
      ⟨s, e, -, declaring, same⟩ | ⟨applied, s, -, declaring, edits⟩
    · rw [same]
      exact ih.declarations declaring.steps
    · exact (ih.declarations declaring.steps).edits edits

/-- In every class set that a run comes to, inheritance can be worked out if every ancestor of a
class that scripts can match is known, on the classpath or a part of the platform. Otherwise that
fails over an ancestor that is not. -/
theorem attained_shareInherited (attained : Attained files scripts set) (filed : set.WellFiled) :
    (∃ later, shareInherited.run set = .ok ⟨⟩ later ∧
        ∀ id ∈ set.candidates, ∀ name, set.NamesAncestor id name → ¬set.Lacks name) ∨
      ∃ later, ∃ id ∈ set.candidates, ∃ name,
        shareInherited.run set = .error (.unresolvedAncestor (set.classAt id).name name) later ∧
          set.NamesAncestor id name ∧ set.Lacks name := by
  have orderly := attained.orderly
  rcases shareInherited_ends orderly attained.wellFormed filed with
    succeeds | ⟨e, later, ran, id, root, name, rfl, fails⟩
  · rw [orderly.roots] at succeeds
    exact .inl succeeds
  · exact .inr ⟨later, id, orderly.roots ▸ root, name, ran, fails⟩

/-- A class with given interfaces and a method that mentions `x/Missing`, for which there may be a
stub. -/
def dependent (interfaces : List String) (stubs : Array ClassEntry) (modified : Bool) : ClassSet :=
  { classes := #[{ ClassEntry.fresh "a/A" none 33 with
      interfaces := interfaces, methods := [⟨0⟩], view := [⟨0⟩], modified := modified }] ++ stubs
    methods := #[⟨⟨"run", "()V", 9, [],
      some { insns := [.type Opcode.new "x/Missing", .simple Opcode.pop,
        .simple Opcode.voidReturn] }⟩, ⟨0⟩, [⟨0⟩], false⟩] }

theorem attained_dependent {interfaces : List String} (one : interfaces ∈ [[], ["x/Missing"]]) :
    Attained (fun _ => True) (fun _ _ _ => True) (dependent interfaces #[] false) := by
  have inserted : dependent interfaces #[] false =
      ofFiles [⟨⟨"a/A", none, interfaces, 33, 50, 0, none⟩, [],
        [⟨"run", "()V", 9, [],
          some { insns := [.type Opcode.new "x/Missing", .simple Opcode.pop,
            .simple Opcode.voidReturn] }⟩]⟩] := by
    rcases List.mem_pair.1 one with rfl | rfl <;> with_unfolding_all decide
  rw [inserted]
  exact ofFiles_rule (.empty []) (fun _ _ _ before inserted => .insert before trivial inserted) _

theorem attained_shareInherited_lacks :
    Attained (fun _ => True) (fun _ _ _ => True) (dependent ["x/Missing"] #[] false) ∧
      (dependent ["x/Missing"] #[] false).WellFiled ∧
      ∃ later, ∃ id ∈ (dependent ["x/Missing"] #[] false).candidates, ∃ name,
        shareInherited.run (dependent ["x/Missing"] #[] false) =
            .error (.unresolvedAncestor ((dependent ["x/Missing"] #[] false).classAt id).name name)
              later ∧
          (dependent ["x/Missing"] #[] false).NamesAncestor id name ∧
            (dependent ["x/Missing"] #[] false).Lacks name := by
  have attained := attained_dependent (List.mem_pair.2 (.inr rfl))
  have filed : (dependent ["x/Missing"] #[] false).WellFiled := ⟨nofun, nofun⟩
  refine ⟨attained, filed,
    (attained_shareInherited attained filed).resolve_left fun ⟨_, _, provided⟩ => ?_⟩
  exact provided ⟨0⟩ (by with_unfolding_all decide) "x/Missing" (.direct (by decide))
    ⟨by with_unfolding_all decide, by with_unfolding_all decide, by decide⟩

/-- A class mentions one that nobody provides, and only then comes to name it as an interface. The
stub that has been made for it passes for the ancestor. -/
theorem attained_shareInherited_stub :
    ∃ set later, Attained (fun _ => True) (fun _ _ _ => True) set ∧ set.WellFiled ∧
      shareInherited.run set = .ok ⟨⟩ later ∧ ∃ id ∈ set.candidates, ∃ name,
        set.NamesAncestor id name ∧
        (∀ cls, set.find? name = some cls → (set.classAt cls).isExternal = true) ∧
        set.onClasspath? name = .ok none ∧ isPlatformClass name = false := by
  let script : Script :=
    ⟨[⟨.keep, .ordinary, ⟨"a/A", false⟩, 1, [], [⟨.add, ⟨"x/Missing", false⟩⟩], [], []⟩]⟩
  have shared : shareInherited.run (dependent [] #[] false) = .ok ⟨⟩ (dependent [] #[] false) := by
    with_unfolding_all decide
  have loaded : loadMentioned.run (dependent [] #[] false) =
    .ok ⟨⟩ (dependent [] #[.stub "x/Missing"] false) := by with_unfolding_all decide
  have accepted : (dependent [] #[.stub "x/Missing"] false).resolve script {}
      ((dependent [] #[.stub "x/Missing"] false).verify script) {} =
        .ok ⟨{}, [⟨some ⟨0⟩, [], []⟩]⟩ := by with_unfolding_all decide
  have applied : (dependent [] #[.stub "x/Missing"] false).afterApply script ⟨{},
      [⟨some ⟨0⟩, [], []⟩]⟩ =
      dependent ["x/Missing"] #[.stub "x/Missing"] true := by decide
  have again : shareInherited.run (dependent ["x/Missing"] #[.stub "x/Missing"] true) =
      .ok ⟨⟩ (dependent ["x/Missing"] #[.stub "x/Missing"] true) := by with_unfolding_all decide
  have start := attained_dependent (List.mem_pair.2 (.inl rfl))
  have first := leftBy_ok shared ▸ Attained.shareInherited start
  have second := leftBy_ok loaded ▸ Attained.loadMentioned first
  have filed : (dependent ["x/Missing"] #[.stub "x/Missing"] true).WellFiled :=
    ⟨fun name file unreadable => (by cases unreadable),
      fun name file provided => (by cases provided)⟩
  exact ⟨_, _, applied ▸ .apply second accepted trivial, filed, again,
    ⟨0⟩, by with_unfolding_all decide, "x/Missing", .direct (by decide),
    by with_unfolding_all decide, by decide, by decide⟩

end ClassSet

end JvmPatch
