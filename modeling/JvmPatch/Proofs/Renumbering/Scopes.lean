import JvmPatch.Proofs.Renumbering.Basic
import JvmPatch.Proofs.Scope.Binding
import JvmPatch.Proofs.Scope.Members

/-! Scopes that differ in numbers only. Where a key stands for several members, they are searched in
the order of their numbers, so both scopes agree on what it stands for in a class only if no two of
them are equally near to the class. Whether a key can be bound does not depend on the order. -/

set_option autoImplicit false

namespace JvmPatch

section Lists

variable {α : Type} {p q p' q' : α → Bool} {xs ys : List α} {f : α → α}

/-- Of the elements that a search for `p`, and then for `q`, can find, there is only one. -/
structure OneFound (p q : α → Bool) (xs : List α) : Prop where
  first : ∀ x ∈ xs, ∀ y ∈ xs, p x = true → p y = true → x = y
  second : (∀ x ∈ xs, p x = false) → ∀ x ∈ xs, ∀ y ∈ xs, q x = true → q y = true → x = y

theorem OneFound.of_either (one : ∀ x ∈ xs, ∀ y ∈ xs, (p x || q x) = true →
      (p y || q y) = true → x = y) :
    OneFound p q xs where
  first x inside y inside' passes passes' :=
    one x inside y inside' (by rw [passes, Bool.true_or]) (by rw [passes', Bool.true_or])
  second _ x inside y inside' passes passes' :=
    one x inside y inside' (by rw [passes, Bool.or_true]) (by rw [passes', Bool.or_true])

/-- Where all that can be found has one value, it is found in any order. -/
theorem map_find?_perm {β : Type} {g g' : α → β} (perm : ys.Perm (xs.map f))
    (same : ∀ x ∈ xs, p' (f x) = p x) (values : ∀ x ∈ xs, g' (f x) = g x)
    (one : ∀ x ∈ xs, ∀ y ∈ xs, p x = true → p y = true → g x = g y) :
    (ys.find? p').map g' = (xs.find? p).map g := by
  cases found : xs.find? p with
  | none =>
    have nowhere : ys.find? p' = none := by
      refine List.find?_eq_none.2 fun y member => ?_
      obtain ⟨x, inside, rfl⟩ := List.mem_map.1 (perm.mem_iff.1 member)
      rw [same x inside]
      exact List.find?_eq_none.1 found x inside
    rw [nowhere]
    rfl
  | some x =>
    have inside := List.mem_of_find?_eq_some found
    have passes := List.find?_some found
    have isFound : (ys.find? p').isSome = true :=
      List.find?_isSome.2 ⟨f x, perm.mem_iff.2 (List.mem_map_of_mem inside),
        (same x inside).trans passes⟩
    obtain ⟨y, isFirst⟩ := Option.isSome_iff_exists.1 isFound
    obtain ⟨z, inside', rfl⟩ := List.mem_map.1 (perm.mem_iff.1 (List.mem_of_find?_eq_some isFirst))
    have passes' : p z = true := (same z inside').symm.trans (List.find?_some isFirst)
    rw [isFirst, Option.map_some, Option.map_some, values z inside',
      one z inside' x inside passes' passes]

/-- What can be found in one way only is found in any order. -/
theorem find?_perm (perm : ys.Perm (xs.map f)) (same : ∀ x ∈ xs, p' (f x) = p x)
    (one : ∀ x ∈ xs, ∀ y ∈ xs, p x = true → p y = true → x = y) :
    ys.find? p' = (xs.find? p).map f := by
  refine Option.map_id'.symm.trans ?_
  exact map_find?_perm perm same (fun _ _ => rfl) fun x inside y inside' passes passes' =>
    congrArg f (one x inside y inside' passes passes')

theorem OneFound.find?_perm (one : OneFound p q xs) (perm : ys.Perm (xs.map f))
    (first : ∀ x ∈ xs, p' (f x) = p x) (second : ∀ x ∈ xs, q' (f x) = q x) :
    (ys.find? p').or (ys.find? q') = ((xs.find? p).or (xs.find? q)).map f := by
  rw [JvmPatch.find?_perm perm first one.first]
  cases found : xs.find? p with
  | some x => rfl
  | none =>
    have nowhere : ∀ x ∈ xs, p x = false :=
      fun x inside => Bool.eq_false_iff.2 (List.find?_eq_none.1 found x inside)
    exact JvmPatch.find?_perm perm second (one.second nowhere)

/-- Whether what is found passes the first test depends on the elements only, not on their order. -/
theorem any_found [DecidableEq α] {x : α} (absent : x ∉ xs) :
    ((xs.find? p).or (xs.find? q)).any (fun y => y != x && p y) = xs.any p := by
  cases found : xs.find? p with
  | some y =>
    have inside := List.mem_of_find?_eq_some found
    have passes := List.find?_some found
    have different : y ≠ x := fun same => absent (same ▸ inside)
    rw [List.any_eq_true.2 ⟨y, inside, passes⟩]
    simp [passes, different]
  | none =>
    have fails : xs.any p = false := List.any_eq_false.2 (List.find?_eq_none.1 found)
    rw [fails, Option.none_or]
    cases other : xs.find? q with
    | none => rfl
    | some y => simp [List.any_eq_false.1 fails y (List.mem_of_find?_eq_some other)]

theorem any_perm (perm : ys.Perm (xs.map f)) (same : ∀ x ∈ xs, p' (f x) = p x) :
    ys.any p' = xs.any p := by
  rw [perm.any_eq, List.any_map, Bool.eq_iff_iff, List.any_eq_true, List.any_eq_true]
  exact exists_congr fun x => and_congr_right fun inside => by
    rw [Function.comp_apply, same x inside]

end Lists

namespace Table

variable {α β : Type} [DecidableEq α]

def Keyed (t : Table α β) : Prop := (t.entries.map Prod.fst).Nodup

theorem Keyed.get?_eq_some_iff {t : Table α β} (keyed : t.Keyed) {k : α} {v : β} :
    t.get? k = some v ↔ (k, v) ∈ t.entries := by
  refine ⟨mem_entries_of_get?, fun member => ?_⟩
  cases found : t.get? k with
  | none => exact absurd rfl (ne_of_get?_eq_none found _ member)
  | some w =>
    have same := List.inj_on_of_nodup_map keyed (mem_entries_of_get? found) member rfl
    rw [(Prod.mk.inj same).2]

omit [DecidableEq α] in
theorem Keyed.filterKeys {t : Table α β} (keyed : t.Keyed) (keep : α → Bool) :
    (t.filterKeys keep).Keyed :=
  List.Nodup.sublist (List.Sublist.map _ List.filter_sublist) keyed

theorem entries_insert_of_new [Ord α] {t : Table α β} {k : α} (new : t.get? k = none) (v : β) :
    (t.insert k v).entries.Perm ((k, v) :: t.entries) := by
  obtain ⟨before, after, split, inserted⟩ := insertEntry_of_new v (ne_of_get?_eq_none new)
  rw [insert, inserted, split]
  exact List.perm_middle

theorem Keyed.insert [Ord α] {t : Table α β} (keyed : t.Keyed) {k : α}
    (new : t.get? k = none) (v : β) :
    (t.insert k v).Keyed := by
  refine ((entries_insert_of_new new v).map Prod.fst).nodup_iff.2
    (List.nodup_cons.2 ⟨fun member => ?_, keyed⟩)
  obtain ⟨e, inside, same⟩ := List.mem_map.1 member
  exact ne_of_get?_eq_none new e inside same

/-- The entries of one table are those of another under other keys, with other values. -/
structure Renamed (κ : α → α) (ν : β → β) (t u : Table α β) : Prop where
  entries : u.entries.Perm (t.entries.map fun e => (κ e.1, ν e.2))
  keyed : t.Keyed

namespace Renamed

variable {κ : α → α} {ν : β → β} {t u : Table α β}

omit [DecidableEq α] in
theorem keyed' (renamed : Renamed κ ν t u) (injective : κ.Injective) : u.Keyed := by
  refine (renamed.entries.map Prod.fst).nodup_iff.2 ?_
  rw [List.map_map, show (Prod.fst ∘ fun e : α × β => (κ e.1, ν e.2)) = κ ∘ Prod.fst from rfl,
    ← List.map_map]
  exact renamed.keyed.map injective

theorem get? (renamed : Renamed κ ν t u) (injective : κ.Injective) (k : α) :
    u.get? (κ k) = (t.get? k).map ν := by
  refine Option.ext fun w => ?_
  rw [(renamed.keyed' injective).get?_eq_some_iff, renamed.entries.mem_iff, List.mem_map,
    Option.map_eq_some_iff]
  constructor
  · rintro ⟨e, member, same⟩
    obtain ⟨isKey, rfl⟩ := Prod.mk.inj same
    exact ⟨e.2, renamed.keyed.get?_eq_some_iff.2 (injective isKey ▸ member), rfl⟩
  · rintro ⟨v, found, rfl⟩
    exact ⟨(k, v), renamed.keyed.get?_eq_some_iff.1 found, rfl⟩

theorem insert [Ord α] (renamed : Renamed κ ν t u) (injective : κ.Injective) {k : α}
    (new : t.get? k = none) (v : β) :
    Renamed κ ν (t.insert k v) (u.insert (κ k) (ν v)) := by
  have new' : u.get? (κ k) = none := by
    rw [renamed.get? injective, new]
    rfl
  refine ⟨?_, renamed.keyed.insert new v⟩
  refine (entries_insert_of_new new' _).trans ((renamed.entries.cons _).trans ?_)
  exact ((entries_insert_of_new new v).map fun e => (κ e.1, ν e.2)).symm

omit [DecidableEq α] in
theorem filterKeys (renamed : Renamed κ ν t u) {keep keep' : α → Bool}
    (same : ∀ k, keep' (κ k) = keep k) :
    Renamed κ ν (t.filterKeys keep) (u.filterKeys keep') := by
  refine ⟨(renamed.entries.filter _).trans ?_, renamed.keyed.filterKeys keep⟩
  rw [List.filter_map, show ((fun e : α × β => keep' e.1) ∘ fun e : α × β => (κ e.1, ν e.2)) =
    fun e => keep e.1 from funext fun e => same e.1]
  exact .refl _

omit [DecidableEq α] in
theorem any (renamed : Renamed κ ν t u) {p p' : α × β → Bool}
    (same : ∀ k v, p' (κ k, ν v) = p (k, v)) :
    u.entries.any p' = t.entries.any p := by
  rw [renamed.entries.any_eq, List.any_map]
  exact congrArg (fun r => t.entries.any r) (funext fun e => same e.1 e.2)

omit [DecidableEq α] in
theorem keysOf [DecidableEq β] (renamed : Renamed κ id t u) (value : β) :
    (u.keysOf value).Perm ((t.keysOf value).map κ) := by
  refine ((renamed.entries.filter fun e => e.2 == value).map Prod.fst).trans ?_
  rw [Table.keysOf, List.filter_map, List.map_map, List.map_map]
  exact .refl _

end Renamed

end Table

namespace Scope

/-- In no class are two members of one key equally near: of those that the class declares, there is
at most one, and at most one that it has otherwise where it declares none. -/
structure Untied (set : ClassSet) (scope : Scope) : Prop where
  methods : ∀ cls key, OneFound (fun m => (set.methodAt m).declaredBy == cls)
    (fun m => (set.methodAt m).owners.contains cls) (scope.methodsOf key)
  fields : ∀ cls key, OneFound (fun f => (set.fieldAt f).declaredBy == cls)
    (fun f => (set.fieldAt f).owners.contains cls) (scope.fieldsOf key)

theorem Untied.congr {set : ClassSet} {scope later : Scope} (untied : scope.Untied set)
    (methods : later.methods = scope.methods) (fields : later.fields = scope.fields) :
    later.Untied set := by
  obtain ⟨one, two⟩ := untied
  constructor
  · simpa only [methodsOf, methods] using one
  · simpa only [fieldsOf, fields] using two

end Scope

/-- A label name with another number for its body. -/
def LabelKey.renumber (ρ : Renumbering) (key : LabelKey) : LabelKey := ⟨ρ.method key.body, key.name⟩

theorem LabelKey.renumber_injective (ρ : Renumbering) : (LabelKey.renumber ρ).Injective := by
  rintro ⟨body, name⟩ ⟨body', name'⟩ same
  obtain ⟨isBody, isName⟩ := LabelKey.mk.inj same
  exact congrArg₂ LabelKey.mk (ρ.method.injective isBody) isName

/-- Two scopes differ in numbers only. The members that keys stand for are known. -/
structure Scope.Renumbered (ρ : Renumbering) (set : ClassSet) (scope other : Scope) : Prop where
  classes : scope.classes.Renamed id ρ.cls other.classes
  methods : scope.methods.Renamed ρ.method id other.methods
  fields : scope.fields.Renamed ρ.field id other.fields
  labels : scope.labels.Renamed (LabelKey.renumber ρ) id other.labels
  bodies : ∀ body, other.bodies.get? (ρ.method body) = scope.bodies.get? body
  knownMethods : ∀ m key, scope.methods.get? m = some key → set.HasMethod m
  knownFields : ∀ f key, scope.fields.get? f = some key → set.HasField f

namespace Scope.Renumbered

variable {ρ : Renumbering} {set other : ClassSet} {scope scope' : Scope}

theorem empty (ρ : Renumbering) (set : ClassSet) : Scope.Renumbered ρ set {} {} where
  classes := ⟨.refl _, List.nodup_nil⟩
  methods := ⟨.refl _, List.nodup_nil⟩
  fields := ⟨.refl _, List.nodup_nil⟩
  labels := ⟨.refl _, List.nodup_nil⟩
  bodies := fun _ => rfl
  knownMethods := fun _ _ found => nomatch found
  knownFields := fun _ _ found => nomatch found

/-- What is known stays known. -/
theorem later (renumbered : Scope.Renumbered ρ set scope scope') {next : ClassSet}
    (methods : ∀ m, set.HasMethod m → next.HasMethod m)
    (fields : ∀ f, set.HasField f → next.HasField f) :
    Scope.Renumbered ρ next scope scope' :=
  { renumbered with
    knownMethods := fun m key found => methods m (renumbered.knownMethods m key found)
    knownFields := fun f key found => fields f (renumbered.knownFields f key found) }

theorem class? (renumbered : Scope.Renumbered ρ set scope scope') (key : String) :
    scope'.class? key = (scope.class? key).map ρ.cls :=
  renumbered.classes.get? Function.injective_id key

theorem classKey? (renumbered : Scope.Renumbered ρ set scope scope') (id : ClassId) :
    (scope'.classKey? (ρ.cls id)).isSome = (scope.classKey? id).isSome := by
  have named : scope'.classes.entries.any (fun e => e.2 == ρ.cls id) = scope.classes.entries.any
      fun e => e.2 == id :=
    renumbered.classes.any fun _ _ => ρ.cls.injective.beq_eq
  rw [Scope.classKey?, Scope.classKey?, Table.findKey?, Table.findKey?, Option.isSome_map,
    Option.isSome_map, Bool.eq_iff_iff, List.find?_isSome, List.find?_isSome]
  rwa [Bool.eq_iff_iff, List.any_eq_true, List.any_eq_true] at named

theorem bindClass? (renumbered : Scope.Renumbered ρ set scope scope') (key : String)
    (id : ClassId) :
    Option.Rel (Scope.Renumbered ρ set) (scope.bindClass? key id)
      (scope'.bindClass? key (ρ.cls id)) := by
  rw [Scope.bindClass?, Scope.bindClass?, renumbered.class?]
  cases found : scope.class? key with
  | some bound =>
    dsimp only [Option.map_some]
    by_cases same : bound = id
    · rw [if_pos same, if_pos (congrArg ρ.cls same)]
      exact .some renumbered
    · rw [if_neg same, if_neg fun h => same (ρ.cls.injective h)]
      exact .none
  | none =>
    dsimp only [Option.map_none]
    rw [renumbered.classKey?]
    split
    · exact .none
    · exact .some { renumbered with
        classes := renumbered.classes.insert Function.injective_id found id }

theorem label? (renumbered : Scope.Renumbered ρ set scope scope') (body : MethodId)
    (name : String) :
    scope'.label? (ρ.method body) name = scope.label? body name := by
  rw [Scope.label?, Scope.label?]
  exact (renumbered.labels.get? (LabelKey.renumber_injective ρ) ⟨body, name⟩).trans
    (congrFun Option.map_id _)

theorem bindLabel? (renumbered : Scope.Renumbered ρ set scope scope') (body : MethodId)
    (name : String) (l : Label) :
    Option.Rel (Scope.Renumbered ρ set) (scope.bindLabel? body name l)
      (scope'.bindLabel? (ρ.method body) name l) := by
  have taken : (scope'.labels.entries.any fun e => e.1.body == ρ.method body && e.2 == l) =
      scope.labels.entries.any fun e => e.1.body == body && e.2 == l :=
    renumbered.labels.any fun _ v => congrArg (· && v == l) ρ.method.injective.beq_eq
  rw [Scope.bindLabel?, Scope.bindLabel?, renumbered.label?, taken]
  cases found : scope.label? body name with
  | some bound =>
    dsimp only
    split
    · exact .some renumbered
    · exact .none
  | none =>
    dsimp only
    split
    · exact .none
    · have inserted := renumbered.labels.insert (LabelKey.renumber_injective ρ) found l
      exact .some { renumbered with labels := inserted }

theorem methodMatch? (renumbered : Scope.Renumbered ρ set scope scope') (body : MethodId) :
    scope'.methodMatch? (ρ.method body) = scope.methodMatch? body := renumbered.bodies body

theorem recordMatch (renumbered : Scope.Renumbered ρ set scope scope') (body : MethodId)
    (found : MethodMatch) :
    Scope.Renumbered ρ set (scope.recordMatch body found)
      (scope'.recordMatch (ρ.method body) found) := by
  refine { renumbered with bodies := fun b => ?_ }
  rw [Scope.recordMatch, Scope.recordMatch, Table.get?_insert, Table.get?_insert, renumbered.bodies]
  simp only [ρ.method.injective.eq_iff]

theorem clearBody (renumbered : Scope.Renumbered ρ set scope scope') (body : MethodId) :
    Scope.Renumbered ρ set (scope.clearBody body) (scope'.clearBody (ρ.method body)) := by
  have other (b : MethodId) : (ρ.method b != ρ.method body) = (b != body) :=
    congrArg Bool.not ρ.method.injective.beq_eq
  have labels : Table.Renamed (LabelKey.renumber ρ) id
    (scope.labels.filterKeys fun key => key.body != body)
      (scope'.labels.filterKeys fun key => key.body != ρ.method body) :=
    renumbered.labels.filterKeys fun key => other key.body
  unfold Scope.clearBody
  refine { renumbered with labels := labels, bodies := fun b => ?_ }
  rw [Table.erase, Table.erase, Table.get?_filterKeys, Table.get?_filterKeys,
    renumbered.bodies, other]

section Members

variable (same : ClassSet.Renumbered ρ set other) (renumbered : Scope.Renumbered ρ set scope scope')
include same renumbered

theorem declares_method {m : MethodId} {key : MemberKey} (member : m ∈ scope.methodsOf key)
    (cls : ClassId) :
    ((other.methodAt (ρ.method m)).declaredBy == ρ.cls cls) =
      ((set.methodAt m).declaredBy == cls) := by
  obtain ⟨e, inside, rfl⟩ := List.mem_map.1 member
  have bound := renumbered.methods.keyed.get?_eq_some_iff.2 (List.mem_filter.1 inside).1
  rw [same.methodDeclaredBy _ (renumbered.knownMethods _ _ bound), Bool.eq_iff_iff]
  simp [ρ.cls.injective.eq_iff]

theorem declares_field {f : FieldId} {key : MemberKey} (member : f ∈ scope.fieldsOf key)
    (cls : ClassId) :
    ((other.fieldAt (ρ.field f)).declaredBy == ρ.cls cls) =
      ((set.fieldAt f).declaredBy == cls) := by
  obtain ⟨e, inside, rfl⟩ := List.mem_map.1 member
  have bound := renumbered.fields.keyed.get?_eq_some_iff.2 (List.mem_filter.1 inside).1
  rw [same.fieldDeclaredBy _ (renumbered.knownFields _ _ bound), Bool.eq_iff_iff]
  simp [ρ.cls.injective.eq_iff]

theorem method? (untied : scope.Untied set) (cls : ClassId) (key : MemberKey) :
    scope'.method? other (ρ.cls cls) key = (scope.method? set cls key).map ρ.method := by
  rw [method?_eq_or, method?_eq_or]
  refine (untied.methods cls key).find?_perm (renumbered.methods.keysOf key)
    (fun m member => declares_method same renumbered member cls) fun m _ => ?_
  rw [Bool.eq_iff_iff, List.contains_iff_mem, List.contains_iff_mem]
  exact (same.methodAt m).owners cls

theorem field? (untied : scope.Untied set) (cls : ClassId) (key : MemberKey) :
    scope'.field? other (ρ.cls cls) key = (scope.field? set cls key).map ρ.field := by
  rw [field?_eq_or, field?_eq_or]
  refine (untied.fields cls key).find?_perm (renumbered.fields.keysOf key)
    (fun f member => declares_field same renumbered member cls) fun f _ => ?_
  rw [Bool.eq_iff_iff, List.contains_iff_mem, List.contains_iff_mem]
  exact (same.fieldAt f).owners cls

theorem bindMethod? (cls : ClassId) (key : MemberKey) {m : MethodId} (known : set.HasMethod m) :
    Option.Rel (Scope.Renumbered ρ set) (scope.bindMethod? set cls key m)
      (scope'.bindMethod? other (ρ.cls cls) key (ρ.method m)) := by
  rw [Scope.bindMethod?, Scope.bindMethod?, renumbered.methods.get? ρ.method.injective,
    Option.map_id, id_eq]
  cases found : scope.methods.get? m with
  | some bound =>
    dsimp only
    split
    · exact .some renumbered
    · exact .none
  | none =>
    have absent : m ∉ scope.methods.keysOf key := fun member => by
      obtain ⟨e, inside, same⟩ := List.mem_map.1 member
      exact Table.ne_of_get?_eq_none found e (List.mem_filter.1 inside).1 same
    have perm := renumbered.methods.keysOf key
    have absent' : ρ.method m ∉ scope'.methods.keysOf key := fun member =>
      absent ((List.mem_map_of_injective ρ.method.injective).1 (perm.mem_iff.1 member))
    dsimp only
    rw [method?_eq_or, method?_eq_or, any_found absent, any_found absent',
      any_perm perm fun x member => declares_method same renumbered member cls]
    split
    · exact .none
    · have inserted := renumbered.methods.insert ρ.method.injective found key
      refine .some { renumbered with methods := inserted, knownMethods := fun x key bound => ?_ }
      rw [Table.get?_insert] at bound
      split at bound
      · rw [‹x = m›]
        exact known
      · exact renumbered.knownMethods x key bound

theorem bindField? (cls : ClassId) (key : MemberKey) {f : FieldId} (known : set.HasField f) :
    Option.Rel (Scope.Renumbered ρ set) (scope.bindField? set cls key f)
      (scope'.bindField? other (ρ.cls cls) key (ρ.field f)) := by
  rw [Scope.bindField?, Scope.bindField?, renumbered.fields.get? ρ.field.injective,
    Option.map_id, id_eq]
  cases found : scope.fields.get? f with
  | some bound =>
    dsimp only
    split
    · exact .some renumbered
    · exact .none
  | none =>
    have absent : f ∉ scope.fields.keysOf key := fun member => by
      obtain ⟨e, inside, same⟩ := List.mem_map.1 member
      exact Table.ne_of_get?_eq_none found e (List.mem_filter.1 inside).1 same
    have perm := renumbered.fields.keysOf key
    have absent' : ρ.field f ∉ scope'.fields.keysOf key := fun member =>
      absent ((List.mem_map_of_injective ρ.field.injective).1 (perm.mem_iff.1 member))
    dsimp only
    rw [field?_eq_or, field?_eq_or, any_found absent, any_found absent',
      any_perm perm fun x member => declares_field same renumbered member cls]
    split
    · exact .none
    · have inserted := renumbered.fields.insert ρ.field.injective found key
      refine .some { renumbered with fields := inserted, knownFields := fun x key bound => ?_ }
      rw [Table.get?_insert] at bound
      split at bound
      · rw [‹x = f›]
        exact known
      · exact renumbered.knownFields x key bound

theorem mapClass (name : String) : scope'.mapClass other name = scope.mapClass set name := by
  rw [Scope.mapClass, Scope.mapClass, renumbered.class?]
  cases scope.class? name with
  | none => rfl
  | some id =>
    dsimp only [Option.map_some]
    rw [same.name]

theorem mapType (type : TypeDesc) : scope'.mapType other type = scope.mapType set type := by
  rw [Scope.mapType, Scope.mapType]
  cases type.base with
  | object name =>
    dsimp only
    rw [mapClass same renumbered]
  | _ => rfl

theorem mapMethod (type : MethodDesc) : scope'.mapMethod other type = scope.mapMethod set type := by
  have types : scope'.mapType other = scope.mapType set := funext (mapType same renumbered)
  rw [Scope.mapMethod, Scope.mapMethod, types]

end Members

end Scope.Renumbered

end JvmPatch
