import JvmPatch.ClassSet.Hierarchy
import JvmPatch.Proofs.ClassSet.Evolution
import Mathlib.Data.Finset.Card
import Mathlib.Data.Finset.Dedup
import Mathlib.Data.Finset.Range
import Mathlib.Logic.Relation

/-! The order in which members are looked up. A climb through the superclasses and a breadth-first
search of the superinterfaces come to an end on every graph of names, enter no class twice, and
leave out none that can be reached. -/

set_option autoImplicit false

namespace JvmPatch.ClassSet

/-- A climb through superclasses. It ends at a class without a known superclass, or where it has
been before. -/
inductive SuperWalk (set : ClassSet) : List ClassId → ClassId → List ClassId → Prop where
  | back {seen : List ClassId} {id : ClassId} : id ∈ seen → SuperWalk set seen id []
  | top {seen : List ClassId} {id : ClassId} : id ∉ seen → set.superOf? id = none →
      SuperWalk set seen id [id]
  | up {seen rest : List ClassId} {id above : ClassId} : id ∉ seen → set.superOf? id = some above →
      SuperWalk set (id :: seen) above rest → SuperWalk set seen id (id :: rest)

/-- A breadth-first search of superinterfaces, with the classes that have been seen and a queue of
those that come next. -/
inductive InterfaceWalk (set : ClassSet) : List ClassId → List ClassId → List ClassId → Prop where
  | done {seen : List ClassId} : InterfaceWalk set seen [] []
  | again {seen queue visited : List ClassId} {id : ClassId} :
      id ∈ seen → InterfaceWalk set seen queue visited →
      InterfaceWalk set seen (id :: queue) visited
  | enter {seen queue visited : List ClassId} {id : ClassId} : id ∉ seen →
      InterfaceWalk set (id :: seen) (queue ++ set.interfacesOf id) visited →
      InterfaceWalk set seen (id :: queue) (id :: visited)

variable {set : ClassSet}

/-! ### The walks end -/

def unseen (set : ClassSet) (seen : List ClassId) : Finset Nat :=
  Finset.range set.classes.size \ (seen.map ClassId.index).toFinset

theorem mem_unseen {seen : List ClassId} {id : ClassId} : id.index ∈ set.unseen seen ↔
    set.HasClass id ∧ id ∉ seen := by
  have index : id.index ∈ seen.map ClassId.index ↔ id ∈ seen := by
    refine ⟨fun member => ?_, List.mem_map_of_mem⟩
    obtain ⟨⟨_⟩, inside, same⟩ := List.mem_map.1 member
    cases same
    exact inside
  rw [unseen, Finset.mem_sdiff, Finset.mem_range, List.mem_toFinset, index]
  rfl

theorem unseen_subset {seen seen' : List ClassId} (more : seen ⊆ seen') :
    set.unseen seen' ⊆ set.unseen seen := by
  refine Finset.sdiff_subset_sdiff (fun _ h => h) fun index member => ?_
  rw [List.mem_toFinset] at member ⊢
  exact List.map_subset _ more member

theorem card_unseen_lt {seen seen' : List ClassId} (more : seen ⊆ seen') {id : ClassId}
    (known : set.HasClass id) (new : id ∉ seen) (enters : id ∈ seen') :
    (set.unseen seen').card < (set.unseen seen).card := by
  refine Finset.card_lt_card ⟨unseen_subset more, fun back => ?_⟩
  exact (mem_unseen.1 (back (mem_unseen.2 ⟨known, new⟩))).2 enters

theorem card_unseen_le (seen : List ClassId) : (set.unseen seen).card < set.classes.size + 1 := by
  refine Nat.lt_succ_of_le ((Finset.card_le_card Finset.sdiff_subset).trans ?_)
  rw [Finset.card_range]

theorem known_of_superOf? {id above : ClassId} (up : set.superOf? id = some above) :
    set.HasClass id := by
  by_contra unknown
  rw [superOf?, classAt_of_unknown unknown] at up
  cases up

theorem known_of_mem_interfacesOf {id i : ClassId} (member : i ∈ set.interfacesOf id) :
    set.HasClass i := by
  obtain ⟨name, -, found⟩ := List.mem_filterMap.1 member
  exact (find?_eq_some found).1

theorem known_of_mem_flatMap {ids : List ClassId} {i : ClassId}
    (member : i ∈ ids.flatMap set.interfacesOf) :
    set.HasClass i := by
  obtain ⟨id, -, named⟩ := List.mem_flatMap.1 member
  exact known_of_mem_interfacesOf named

/-- A climb with more fuel than there are classes left ends by itself. -/
theorem superWalk_superChainFrom (fuel : Nat) (seen : List ClassId) (id : ClassId)
    (enough : (set.unseen seen).card < fuel) :
    SuperWalk set seen id (set.superChainFrom fuel seen id) := by
  induction fuel generalizing seen id with
  | zero => exact absurd enough (Nat.not_lt_zero _)
  | succ fuel ih =>
    rw [superChainFrom]
    split
    · rename_i before
      exact .back before
    rename_i new
    cases up : set.superOf? id with
    | none => exact .top new up
    | some above =>
      have fewer := card_unseen_lt (List.subset_cons_self id seen)
        (known_of_superOf? up) new List.mem_cons_self
      exact .up new up (ih _ _ (by omega))

theorem superWalk_superChain (set : ClassSet) (id : ClassId) :
    SuperWalk set [] id (set.superChain id) :=
  superWalk_superChainFrom _ _ _ (card_unseen_le _)

theorem InterfaceWalk.congr {seen seen' queue visited : List ClassId}
    (walk : InterfaceWalk set seen queue visited) (same : ∀ id, id ∈ seen' ↔ id ∈ seen) :
    InterfaceWalk set seen' queue visited := by
  induction walk generalizing seen' with
  | done => exact .done
  | again before _ ih => exact .again ((same _).2 before) (ih same)
  | enter new _ ih =>
    refine .enter (fun before => new ((same _).1 before)) (ih fun id => ?_)
    rw [List.mem_cons, List.mem_cons, same]

/-- The search goes through a level of the queue before it comes to what the level names. -/
theorem InterfaceWalk.level {level seen next visited : List ClassId} :
    let entered := (level.filter fun id => !seen.contains id).eraseDups
    InterfaceWalk set (seen ++ entered) (next ++ entered.flatMap set.interfacesOf) visited →
      InterfaceWalk set seen (level ++ next) (entered ++ visited) := by
  induction level generalizing seen next with
  | nil => simp
  | cons id level ih =>
    intro entered walk
    by_cases before : id ∈ seen
    · have same : entered = (level.filter fun id => !seen.contains id).eraseDups := by
        simp [entered, before]
      rw [same] at walk ⊢
      exact .again before (ih walk)
    · have others : (level.filter fun i => !seen.contains i).filter (fun i => !i == id) =
          level.filter fun i => !(id :: seen).contains i := by
        rw [List.filter_filter]
        refine List.filter_congr fun i _ => ?_
        by_cases isId : i = id <;> simp [isId]
      have same : entered = id :: (level.filter fun i => !(id :: seen).contains i).eraseDups := by
        simp only [entered]
        rw [List.filter_cons_of_pos (by simpa using before), List.eraseDups_cons, others]
      rw [same] at walk ⊢
      refine .enter before ?_
      rw [show level.append next = level ++ next from rfl, List.append_assoc]
      have alike (i : ClassId) :
          i ∈ id :: seen ++ (level.filter fun i => !(id :: seen).contains i).eraseDups ↔
          i ∈ seen ++ id :: (level.filter fun i => !(id :: seen).contains i).eraseDups := by
        simp only [List.mem_append, List.mem_cons]
        tauto
      refine ih (InterfaceWalk.congr ?_ alike)
      rwa [List.append_assoc, ← List.flatMap_cons]

/-- A search by levels with more fuel than there are classes left is a breadth-first search. -/
theorem interfaceWalk_interfaceLevels (fuel : Nat) (seen level : List ClassId)
    (known : ∀ id ∈ level, set.HasClass id) (enough : (set.unseen seen).card < fuel) :
    InterfaceWalk set seen level (set.interfaceLevels fuel seen level) := by
  induction fuel generalizing seen level with
  | zero => exact absurd enough (Nat.not_lt_zero _)
  | succ fuel ih =>
    rw [interfaceLevels]
    generalize isEntered : (level.filter fun id => !seen.contains id).eraseDups = entered
    have goesOn (visited : List ClassId)
        (walk : InterfaceWalk set (seen ++ entered) (entered.flatMap set.interfacesOf) visited) :
        InterfaceWalk set seen level (entered ++ visited) := by
      have walked : InterfaceWalk set seen (level ++ []) _ :=
        InterfaceWalk.level (isEntered.symm ▸ walk)
      rwa [isEntered, List.append_nil] at walked
    cases entered with
    | nil => exact goesOn [] .done
    | cons first rest =>
      have new : first ∈ level ∧ first ∉ seen := by
        have member : first ∈ (level.filter fun id => !seen.contains id).eraseDups :=
          isEntered ▸ List.mem_cons_self
        rw [List.mem_eraseDups, List.mem_filter] at member
        simpa using member
      have fewer := card_unseen_lt (List.subset_append_left seen (first :: rest))
        (known first new.1) new.2
        (List.mem_append_right _ List.mem_cons_self)
      exact goesOn _ (ih _ _ (fun id member => known_of_mem_flatMap member) (by omega))

/-- The superinterfaces of a class and of its superclasses, apart from the latter. -/
def interfaceOrder (set : ClassSet) (id : ClassId) : List ClassId :=
  set.interfaceLevels (set.classes.size + 1) (set.superChain id)
    ((set.superChain id).flatMap set.interfacesOf)

theorem hierarchy_eq (set : ClassSet) (id : ClassId) :
    set.hierarchy id = set.superChain id ++ set.interfaceOrder id := rfl

theorem interfaceWalk_interfaceOrder (set : ClassSet) (id : ClassId) :
    InterfaceWalk set (set.superChain id) ((set.superChain id).flatMap set.interfacesOf)
      (set.interfaceOrder id) :=
  interfaceWalk_interfaceLevels _ _ _ (fun _ member => known_of_mem_flatMap member)
    (card_unseen_le _)

/-! ### No class is entered twice -/

theorem SuperWalk.fresh {seen chain : List ClassId} {id : ClassId}
    (walk : SuperWalk set seen id chain) :
    chain.Nodup ∧ ∀ i ∈ chain, i ∉ seen := by
  induction walk with
  | back => exact ⟨.nil, nofun⟩
  | top new => exact ⟨List.nodup_singleton _, fun i member => List.mem_singleton.1 member ▸ new⟩
  | up new _ _ ih =>
    refine ⟨List.nodup_cons.2 ⟨fun member => ih.2 _ member List.mem_cons_self, ih.1⟩,
      fun i member => ?_⟩
    rcases List.mem_cons.1 member with rfl | member
    · exact new
    · exact fun before => ih.2 i member (.tail _ before)

theorem InterfaceWalk.fresh {seen queue visited : List ClassId}
    (walk : InterfaceWalk set seen queue visited) :
    visited.Nodup ∧ ∀ i ∈ visited, i ∉ seen := by
  induction walk with
  | done => exact ⟨.nil, nofun⟩
  | again _ _ ih => exact ih
  | enter new _ ih =>
    refine ⟨List.nodup_cons.2 ⟨fun member => ih.2 _ member List.mem_cons_self, ih.1⟩,
      fun i member => ?_⟩
    rcases List.mem_cons.1 member with rfl | member
    · exact new
    · exact fun before => ih.2 i member (.tail _ before)

theorem nodup_hierarchy (set : ClassSet) (id : ClassId) : (set.hierarchy id).Nodup := by
  have interfaces := (set.interfaceWalk_interfaceOrder id).fresh
  refine List.nodup_append.2 ⟨(set.superWalk_superChain id).fresh.1, interfaces.1,
    fun i above j member same => ?_⟩
  exact interfaces.2 j member (same ▸ above)

/-! ### No class is left out -/

/-- A class is another one, or a superclass of it. -/
def AtOrAbove (set : ClassSet) : ClassId → ClassId → Prop :=
  Relation.ReflTransGen fun id above => set.superOf? id = some above

/-- A class is named among the interfaces of another one or of a superclass of it, or of such an
interface. -/
inductive Superinterface (set : ClassSet) (id : ClassId) : ClassId → Prop where
  | direct {cls i : ClassId} : set.AtOrAbove id cls → i ∈ set.interfacesOf cls →
      Superinterface set id i
  | onward {i j : ClassId} : Superinterface set id i → j ∈ set.interfacesOf i →
      Superinterface set id j

/-- What a climb visits is closed, but for the classes at which it has turned back. -/
theorem SuperWalk.closed {seen chain : List ClassId} {id : ClassId}
    (walk : SuperWalk set seen id chain) :
    (id ∈ chain ∨ id ∈ seen) ∧ ∀ cls ∈ chain, ∀ above, set.superOf? cls = some above →
      above ∈ chain ∨ above ∈ seen := by
  induction walk with
  | back before => exact ⟨.inr before, nofun⟩
  | top _ last =>
    refine ⟨.inl List.mem_cons_self, fun cls member above up => ?_⟩
    obtain rfl := List.mem_singleton.1 member
    cases last.symm.trans up
  | @up seen rest id next _ isNext _ ih =>
    have onward (cls : ClassId) (comes : cls ∈ rest ∨ cls ∈ id :: seen) : cls ∈ id :: rest ∨
        cls ∈ seen := by
      simp only [List.mem_cons] at comes ⊢
      tauto
    refine ⟨.inl List.mem_cons_self, fun cls member above up => onward above ?_⟩
    rcases List.mem_cons.1 member with rfl | member
    · exact Option.some.inj (isNext.symm.trans up) ▸ ih.1
    · exact ih.2 cls member above up

theorem SuperWalk.sound {seen chain : List ClassId} {id : ClassId}
    (walk : SuperWalk set seen id chain) :
    ∀ cls ∈ chain, set.AtOrAbove id cls := by
  induction walk with
  | back => exact nofun
  | top => exact fun cls member => List.mem_singleton.1 member ▸ .refl
  | up _ isNext _ ih =>
    intro cls member
    rcases List.mem_cons.1 member with rfl | member
    · exact .refl
    · exact .head isNext (ih cls member)

theorem mem_superChain {id cls : ClassId} : cls ∈ set.superChain id ↔ set.AtOrAbove id cls := by
  have walk := set.superWalk_superChain id
  refine ⟨walk.sound cls, fun above => ?_⟩
  obtain ⟨start, closed⟩ := walk.closed
  induction above with
  | refl => exact start.resolve_right List.not_mem_nil
  | tail _ up ih => exact (closed _ ih _ up).resolve_right List.not_mem_nil

theorem InterfaceWalk.closed {seen queue visited : List ClassId}
    (walk : InterfaceWalk set seen queue visited) :
    (∀ i ∈ queue, i ∈ visited ∨ i ∈ seen) ∧ ∀ i ∈ visited, ∀ j ∈ set.interfacesOf i, j ∈ visited ∨
      j ∈ seen := by
  induction walk with
  | done => exact ⟨nofun, nofun⟩
  | again before _ ih => exact ⟨List.forall_mem_cons.2 ⟨.inr before, ih.1⟩, ih.2⟩
  | @enter seen queue visited id _ _ ih =>
    have onward (i : ClassId) (comes : i ∈ visited ∨ i ∈ id :: seen) : i ∈ id :: visited ∨
        i ∈ seen := by
      simp only [List.mem_cons] at comes ⊢
      tauto
    obtain ⟨queued, closed⟩ := ih
    refine ⟨List.forall_mem_cons.2 ⟨.inl List.mem_cons_self, fun i member => ?_⟩,
      fun i member j named => ?_⟩
    · exact onward i (queued i (List.mem_append_left _ member))
    · rcases List.mem_cons.1 member with rfl | member
      · exact onward j (queued j (List.mem_append_right _ named))
      · exact onward j (closed i member j named)

/-- What a search visits has whatever the queue has and an interface inherits from the class that
names it. -/
theorem InterfaceWalk.sound {P : ClassId → Prop} {seen queue visited : List ClassId}
    (walk : InterfaceWalk set seen queue visited)
    (onward : ∀ i, P i → ∀ j ∈ set.interfacesOf i, P j) (queued : ∀ i ∈ queue, P i) :
    ∀ i ∈ visited, P i := by
  induction walk with
  | done => exact nofun
  | again _ _ ih => exact ih fun i member => queued i (.tail _ member)
  | enter _ _ ih =>
    have here := queued _ List.mem_cons_self
    refine List.forall_mem_cons.2 ⟨here, ih fun i member => ?_⟩
    rcases List.mem_append.1 member with member | named
    · exact queued i (.tail _ member)
    · exact onward _ here i named

/-- The search comes to the superinterfaces, apart from those that have been met among the
superclasses. -/
theorem mem_interfaceOrder {id i : ClassId} :
    i ∈ set.interfaceOrder id ↔ set.Superinterface id i ∧ i ∉ set.superChain id := by
  have walk := set.interfaceWalk_interfaceOrder id
  obtain ⟨queued, closed⟩ := walk.closed
  constructor
  · refine fun member => ⟨walk.sound (fun _ above _ => .onward above) (fun j named => ?_) i member,
      walk.fresh.2 i member⟩
    obtain ⟨cls, above, named⟩ := List.mem_flatMap.1 named
    exact .direct (mem_superChain.1 above) named
  · rintro ⟨isAbove, apart⟩
    suffices comes : i ∈ set.interfaceOrder id ∨
      i ∈ set.superChain id from comes.resolve_right apart
    clear apart
    have direct (cls j : ClassId) (above : cls ∈ set.superChain id)
      (named : j ∈ set.interfacesOf cls) :
        j ∈ set.interfaceOrder id ∨ j ∈ set.superChain id :=
          queued j (List.mem_flatMap.2 ⟨cls, above, named⟩)
    induction isAbove with
    | direct above named => exact direct _ _ (mem_superChain.2 above) named
    | onward _ named ih =>
      rcases ih with member | above
      · exact closed _ member _ named
      · exact direct _ _ above named

end JvmPatch.ClassSet
