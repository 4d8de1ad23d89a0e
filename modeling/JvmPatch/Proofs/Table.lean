import JvmPatch.Table

/-! Membership in a set, and looking up a key of a table, after an insertion. The order of the keys
plays no part. -/

set_option autoImplicit false

namespace JvmPatch

theorem mem_insertAscending {α : Type} [Ord α] [DecidableEq α] (x y : α) (ys : List α) :
    x ∈ insertAscending y ys ↔ x = y ∨ x ∈ ys := by
  induction ys with
  | nil => simp [insertAscending]
  | cons z zs ih =>
    rw [insertAscending]
    split
    · simp_all
    split
    · simp
    · rw [List.mem_cons, ih, List.mem_cons, or_left_comm]

theorem mem_foldl_insertAscending {α : Type} [Ord α] [DecidableEq α] (x : α) (new : List α) :
    ∀ ys : List α, x ∈ new.foldl (fun ys y => insertAscending y ys) ys ↔ x ∈ new ∨ x ∈ ys := by
  induction new with
  | nil => simp
  | cons y new ih =>
    intro ys
    rw [List.foldl_cons, ih, mem_insertAscending, List.mem_cons, or_left_comm, or_assoc]

namespace Table

variable {α β : Type} [Ord α] [DecidableEq α]

omit [Ord α] in
private theorem lookup_cons_eq_ite (k key : α) (value : β) (entries : List (α × β)) :
    ((key, value) :: entries).lookup k = if k = key then some value else entries.lookup k := by
  rw [List.lookup_cons]
  by_cases h : k = key
  · subst h
    simp
  · rw [beq_eq_false_iff_ne.2 h, if_neg h]

private theorem lookup_insertEntry (key : α) (value : β) (entries : List (α × β)) (k : α) :
    (insertEntry key value entries).lookup k = if k = key then some value
      else entries.lookup k := by
  induction entries with
  | nil => exact lookup_cons_eq_ite k key value []
  | cons e es ih =>
    obtain ⟨e, v⟩ := e
    simp only [insertEntry]
    split
    · rename_i same
      subst same
      rw [lookup_cons_eq_ite, lookup_cons_eq_ite]
      split <;> rfl
    · rename_i different
      split
      · exact lookup_cons_eq_ite _ _ _ _
      · rw [lookup_cons_eq_ite, lookup_cons_eq_ite, ih]
        by_cases h : k = e
        · subst h
          rw [if_pos rfl, if_neg (Ne.symm different), if_pos rfl]
        · rw [if_neg h, if_neg h]

theorem get?_insert (t : Table α β) (key : α) (value : β) (k : α) :
    (t.insert key value).get? k = if k = key then some value else t.get? k :=
  lookup_insertEntry key value t.entries k

@[simp] theorem get?_insert_self (t : Table α β) (key : α) (value : β) :
    (t.insert key value).get? key = some value := by
  rw [get?_insert, if_pos rfl]

theorem get?_insert_of_ne (t : Table α β) {key k : α} (value : β) (h : k ≠ key) :
    (t.insert key value).get? k = t.get? k := by
  rw [get?_insert, if_neg h]

/-- Putting a value at a new key keeps the values at all others. -/
theorem get?_insert_of_get? {t : Table α β} {key k : α} {value x : β} (new : t.get? key = none)
    (found : t.get? k = some x) : (t.insert key value).get? k = some x := by
  have different : k ≠ key := by
    rintro rfl
    rw [new] at found
    cases found
  rw [get?_insert_of_ne t value different, found]

omit [Ord α] in
theorem mem_entries_of_get? {t : Table α β} {key : α} {value : β}
    (found : t.get? key = some value) :
    (key, value) ∈ t.entries := by
  obtain ⟨front, back, split, -⟩ := List.lookup_eq_some_iff.1 found
  rw [split]
  exact List.mem_append_right _ (.head _)

omit [Ord α] in
theorem ne_of_get?_eq_none {t : Table α β} {key : α} (missing : t.get? key = none) :
    ∀ e ∈ t.entries, e.1 ≠ key := by
  intro e member same
  have different := List.lookup_eq_none_iff.1 missing e member
  rw [same] at different
  simp at different

theorem mem_insertEntry {key : α} {value : β} {entries : List (α × β)} {e : α × β}
    (member : e ∈ insertEntry key value entries) : e = (key, value) ∨ e ∈ entries := by
  induction entries with
  | nil => exact .inl (List.mem_singleton.1 member)
  | cons e' es ih =>
    rw [insertEntry] at member
    split at member
    · exact (List.mem_cons.1 member).imp_right (.tail _)
    · split at member
      · exact List.mem_cons.1 member
      · rcases List.mem_cons.1 member with rfl | inside
        · exact .inr List.mem_cons_self
        · exact (ih inside).imp_right (.tail _)

/-- A new key comes in between the others. -/
theorem insertEntry_of_new {key : α} (value : β) {entries : List (α × β)}
    (new : ∀ e ∈ entries, e.1 ≠ key) :
    ∃ before after, entries = before ++ after ∧
      insertEntry key value entries = before ++ (key, value) :: after := by
  induction entries with
  | nil => exact ⟨[], [], rfl, rfl⟩
  | cons e es ih =>
    rw [insertEntry, if_neg (Ne.symm (new e List.mem_cons_self))]
    split
    · exact ⟨[], e :: es, rfl, rfl⟩
    · obtain ⟨before, after, rfl, inserted⟩ := ih fun e' member => new e' (.tail _ member)
      exact ⟨e :: before, after, rfl, by rw [inserted, List.cons_append]⟩

theorem mem_insertEntry_self (key : α) (value : β)
    (entries : List (α × β)) : (key, value) ∈ insertEntry key value entries := by
  induction entries with
  | nil => exact .head _
  | cons e es ih =>
    rw [insertEntry]
    split
    · exact .head _
    · split
      · exact .head _
      · exact .tail _ ih

theorem mem_insertEntry_of_mem {key : α} (value : β)
    {entries : List (α × β)} {e : α × β} (member : e ∈ entries) (other : e.1 ≠ key) :
    e ∈ insertEntry key value entries := by
  induction entries with
  | nil => cases member
  | cons e' es ih =>
    rw [insertEntry]
    split
    · rename_i same
      rcases List.mem_cons.1 member with rfl | inside
      · exact absurd same.symm other
      · exact .tail _ inside
    · split
      · exact .tail _ member
      · rcases List.mem_cons.1 member with rfl | inside
        · exact .head _
        · exact .tail _ (ih inside)

omit [Ord α] in
/-- Where a key of a value passes a test, a search among the keys of the value succeeds. -/
theorem exists_find?_of_get? [BEq β] [LawfulBEq β] {t : Table α β} {key : α} {value : β}
    {p : α → Bool} (found : t.get? key = some value) (passes : p key = true) :
    ∃ k, ∃ e ∈ t.entries, e.1 = k ∧
      ((t.entries.filter fun e => e.2 == value).map Prod.fst).find? p = some k ∧ p k = true := by
  have inside : key ∈ (t.entries.filter fun e => e.2 == value).map Prod.fst :=
    List.mem_map.2 ⟨_, List.mem_filter.2 ⟨mem_entries_of_get? found, by simp⟩, rfl⟩
  obtain ⟨k, isFound⟩ := Option.isSome_iff_exists.1 (List.find?_isSome.2 ⟨key, inside, passes⟩)
  obtain ⟨e, member, isKey⟩ := List.mem_map.1 (List.mem_of_find?_eq_some isFound)
  exact ⟨k, e, (List.mem_filter.1 member).1, isKey, isFound, List.find?_some isFound⟩

omit [Ord α] in
private theorem lookup_filter (keep : α → Bool) (entries : List (α × β)) (k : α) :
    (entries.filter fun e => keep e.1).lookup k = if keep k then entries.lookup k else none := by
  induction entries with
  | nil => simp
  | cons e es ih =>
    obtain ⟨key, value⟩ := e
    rw [List.filter_cons]
    split
    · rename_i kept
      rw [lookup_cons_eq_ite, lookup_cons_eq_ite, ih]
      by_cases same : k = key
      · rw [same, if_pos rfl, if_pos rfl, if_pos kept]
      · rw [if_neg same, if_neg same]
    · rename_i dropped
      rw [ih, lookup_cons_eq_ite]
      by_cases same : k = key
      · rw [same, if_neg dropped, if_neg dropped]
      · rw [if_neg same]

omit [Ord α] in
theorem get?_filterKeys (t : Table α β) (keep : α → Bool) (k : α) :
    (t.filterKeys keep).get? k = if keep k then t.get? k else none :=
  lookup_filter keep t.entries k

end Table

end JvmPatch
