import JvmPatch.Proofs.Scope.Binding
import JvmPatch.Proofs.Scope.Under

/-! The members that weak names stand for in a class: those that the class declares, and then those
that it has otherwise. A name that has been bound to a member through a class stands for it in that
class only if the class declares or has it. -/

set_option autoImplicit false

namespace JvmPatch

/-- Where only one element can be found in one search or the other, it is found if it can be. -/
theorem find?_or_find?_eq_ite {α : Type} {p q : α → Bool} {xs : List α} {x : α} (member : x ∈ xs)
    (only : ∀ y ∈ xs, y = x ∨ ¬(p y = true ∨ q y = true)) :
    (xs.find? p).or (xs.find? q) = if p x = true ∨ q x = true then some x else none := by
  split
  · rename_i holds
    have isFound : ((xs.find? p).or (xs.find? q)).isSome = true := by
      rw [Option.isSome_or, Bool.or_eq_true, List.find?_isSome, List.find?_isSome]
      exact holds.imp (fun first => ⟨x, member, first⟩) fun second => ⟨x, member, second⟩
    obtain ⟨y, found⟩ := Option.isSome_iff_exists.1 isFound
    have passes : y ∈ xs ∧ (p y = true ∨ q y = true) := by
      rcases Option.or_eq_some_iff.1 found with found | ⟨-, found⟩
      · exact ⟨List.mem_of_find?_eq_some found, .inl (List.find?_some found)⟩
      · exact ⟨List.mem_of_find?_eq_some found, .inr (List.find?_some found)⟩
    rw [found, (only y passes.1).resolve_right (not_not_intro passes.2)]
  · rename_i fails
    have noneHolds : ∀ y ∈ xs, ¬(p y = true ∨ q y = true) := fun y inside holds =>
      fails ((only y inside).resolve_right (not_not_intro holds) ▸ holds)
    rw [Option.or_eq_none_iff, List.find?_eq_none, List.find?_eq_none]
    exact ⟨fun y inside holds => noneHolds y inside (.inl holds),
      fun y inside holds => noneHolds y inside (.inr holds)⟩

namespace Table

variable {α β : Type} [DecidableEq α] [DecidableEq β] {t later : Table α β} {key k : α} {value : β}

/-- The keys of a value, in their order. -/
def keysOf (t : Table α β) (value : β) : List α :=
  (t.entries.filter fun e => e.2 == value).map Prod.fst

theorem mem_keysOf_of_get? (found : t.get? key = some value) : key ∈ t.keysOf value :=
  List.mem_map.2 ⟨_, List.mem_filter.2 ⟨mem_entries_of_get? found, by simp⟩, rfl⟩

theorem mem_keysOf_insert [Ord α] (member : k ∈ (t.insert key value).keysOf value) :
    k = key ∨ k ∈ t.keysOf value := by
  obtain ⟨e, inside, rfl⟩ := List.mem_map.1 member
  obtain ⟨inside, hasValue⟩ := List.mem_filter.1 inside
  rcases Table.mem_insertEntry inside with rfl | old
  · exact .inl rfl
  · exact .inr (List.mem_map_of_mem (List.mem_filter.2 ⟨old, hasValue⟩))

/-- If none of the keys of a value can be found, then the new one is found if it can be. -/
theorem find?_keysOf [Ord α] {p q : α → Bool}
    (unused : ((t.keysOf value).find? p).or ((t.keysOf value).find? q) = none)
    (has : later.get? key = some value) (new : later = t ∨ later = t.insert key value) :
    ((later.keysOf value).find? p).or ((later.keysOf value).find? q) =
      if p key = true ∨ q key = true then some key else none := by
  refine find?_or_find?_eq_ite (mem_keysOf_of_get? has) fun x member => ?_
  obtain ⟨noFirst, noSecond⟩ := Option.or_eq_none_iff.1 unused
  have noOther (y : α) (inside : y ∈ t.keysOf value) : ¬(p y = true ∨ q y = true) := fun holds =>
    holds.elim (List.find?_eq_none.1 noFirst y inside) (List.find?_eq_none.1 noSecond y inside)
  rcases new with rfl | rfl
  · exact .inr (noOther x member)
  · exact (mem_keysOf_insert member).imp_right (noOther x)

/-- A new key is not found where it does not pass or has another value. -/
theorem find?_keysOf_insert [Ord α] {p : α → Bool} {new : β} (fresh : ∀ e ∈ t.entries, e.1 ≠ key)
    (passes : new = value → p key = false) :
    ((t.insert key new).keysOf value).find? p = (t.keysOf value).find? p := by
  obtain ⟨before, after, split, inserted⟩ := insertEntry_of_new new fresh
  rw [keysOf, keysOf, insert, inserted, split, List.filter_append, List.filter_append,
    List.filter_cons]
  split
  · rename_i same
    have fails := passes (by simpa using same)
    simp [List.find?_append, fails]
  · rfl

/-- A new key that passes is found if no other one is. -/
theorem find?_keysOf_insert_self [Ord α] {p : α → Bool} (none : (t.keysOf value).find? p = none)
    (passes : p key = true) : ((t.insert key value).keysOf value).find? p = some key := by
  have nowhere : ((t.keysOf value).find? p).or ((t.keysOf value).find? fun _ => false) =
      Option.none := by
    rw [none, Option.none_or, List.find?_eq_none]
    exact fun _ _ => Bool.false_ne_true
  have found := find?_keysOf nowhere (get?_insert_self t key value) (.inr rfl)
  have never : ((t.insert key value).keysOf value).find? (fun _ => false) = Option.none :=
    List.find?_eq_none.2 fun _ _ => Bool.false_ne_true
  rwa [never, Option.or_none, if_pos (.inl passes)] at found

end Table

namespace ClassSet

/-- A class declares a field, or is one of the classes that have it. -/
def HoldsField (set : ClassSet) (cls : ClassId) (id : FieldId) : Prop :=
  (set.fieldAt id).declaredBy = cls ∨ cls ∈ (set.fieldAt id).owners

instance (set : ClassSet) (cls : ClassId) (id : FieldId) : Decidable (set.HoldsField cls id) :=
  inferInstanceAs (Decidable (_ ∨ _))

/-- A class declares a method, or is one of the classes that have it. -/
def HoldsMethod (set : ClassSet) (cls : ClassId) (id : MethodId) : Prop :=
  (set.methodAt id).declaredBy = cls ∨ cls ∈ (set.methodAt id).owners

instance (set : ClassSet) (cls : ClassId) (id : MethodId) : Decidable (set.HoldsMethod cls id) :=
  inferInstanceAs (Decidable (_ ∨ _))

end ClassSet

namespace Scope

variable {scope later : Scope} {set : ClassSet} {cls : ClassId} {key : MemberKey}

theorem field?_eq_or (scope : Scope) (set : ClassSet) (cls : ClassId) (key : MemberKey) :
    scope.field? set cls key =
      ((scope.fields.keysOf key).find? fun id => (set.fieldAt id).declaredBy == cls).or
        ((scope.fields.keysOf key).find? fun id => (set.fieldAt id).owners.contains cls) := by
  rw [field?, show scope.fieldsOf key = scope.fields.keysOf key from rfl]
  cases (scope.fields.keysOf key).find? fun id => (set.fieldAt id).declaredBy == cls <;> rfl

theorem method?_eq_or (scope : Scope) (set : ClassSet) (cls : ClassId) (key : MemberKey) :
    scope.method? set cls key =
      ((scope.methods.keysOf key).find? fun id => (set.methodAt id).declaredBy == cls).or
        ((scope.methods.keysOf key).find? fun id => (set.methodAt id).owners.contains cls) := by
  rw [method?, show scope.methodsOf key = scope.methods.keysOf key from rfl]
  cases (scope.methods.keysOf key).find? fun id => (set.methodAt id).declaredBy == cls <;> rfl

theorem holdsField_of_field? {id : FieldId} (stands : scope.field? set cls key = some id) :
    set.HoldsField cls id := by
  rw [field?_eq_or] at stands
  rcases Option.or_eq_some_iff.1 stands with found | ⟨-, found⟩
  · exact .inl (by simpa using List.find?_some found)
  · exact .inr (by simpa using List.find?_some found)

theorem holdsMethod_of_method? {id : MethodId} (stands : scope.method? set cls key = some id) :
    set.HoldsMethod cls id := by
  rw [method?_eq_or] at stands
  rcases Option.or_eq_some_iff.1 stands with found | ⟨-, found⟩
  · exact .inl (by simpa using List.find?_some found)
  · exact .inr (by simpa using List.find?_some found)

theorem fields_of_bindField? {id : FieldId} (bound : scope.bindField? set cls key id = some later) :
    later.fields.get? id = some key ∧
      (later.fields = scope.fields ∨ later.fields = scope.fields.insert id key) := by
  unfold bindField? at bound
  split at bound
  · rename_i found isFound
    split at bound
    · rename_i same
      cases bound
      exact ⟨isFound.trans (congrArg some same), .inl rfl⟩
    · cases bound
  · dsimp only at bound
    split at bound
    · cases bound
    · cases bound
      exact ⟨Table.get?_insert_self _ _ _, .inr rfl⟩

theorem methods_of_bindMethod? {id : MethodId}
    (bound : scope.bindMethod? set cls key id = some later) :
    later.methods.get? id = some key ∧
      (later.methods = scope.methods ∨ later.methods = scope.methods.insert id key) := by
  unfold bindMethod? at bound
  split at bound
  · rename_i found isFound
    split at bound
    · rename_i same
      cases bound
      exact ⟨isFound.trans (congrArg some same), .inl rfl⟩
    · cases bound
  · dsimp only at bound
    split at bound
    · cases bound
    · cases bound
      exact ⟨Table.get?_insert_self _ _ _, .inr rfl⟩

/-- A key that stands for nothing in a class and is bound to a field stands for it in the class if
the class has the field, and still for nothing if not. -/
theorem field?_of_bindField? {id : FieldId} (unused : scope.field? set cls key = none)
    (bound : scope.bindField? set cls key id = some later) :
    later.field? set cls key = if set.HoldsField cls id then some id else none := by
  obtain ⟨has, new⟩ := fields_of_bindField? bound
  rw [field?_eq_or] at unused ⊢
  rw [Table.find?_keysOf unused has new]
  exact if_congr (by simp [ClassSet.HoldsField]) rfl rfl

theorem method?_of_bindMethod? {id : MethodId} (unused : scope.method? set cls key = none)
    (bound : scope.bindMethod? set cls key id = some later) :
    later.method? set cls key = if set.HoldsMethod cls id then some id else none := by
  obtain ⟨has, new⟩ := methods_of_bindMethod? bound
  rw [method?_eq_or] at unused ⊢
  rw [Table.find?_keysOf unused has new]
  exact if_congr (by simp [ClassSet.HoldsMethod]) rfl rfl

end Scope

end JvmPatch
