import Mathlib.Data.List.Forall2
import Mathlib.Data.List.Lex
import JvmPatch.Resolve.Search

/-! The lists that take one element of each of some lists, in the order in which `forProduct` visits
them, and what it means that such an order is lexicographic. -/

set_option autoImplicit false

namespace JvmPatch

/-- The lists that take one element of each of the given lists. The last place changes first. -/
def selections {α : Type} : List (List α) → List (List α)
  | [] => [[]]
  | xs :: rest => xs.flatMap fun x => (selections rest).map (x :: ·)

theorem mem_selections {α : Type} (xss : List (List α)) (l : List α) :
    l ∈ selections xss ↔ List.Forall₂ (· ∈ ·) l xss := by
  induction xss generalizing l with
  | nil => simp [selections]
  | cons xs rest ih =>
    simp only [selections, List.mem_flatMap, List.mem_map, ih, List.forall₂_cons_right_iff]
    constructor
    · rintro ⟨x, hx, t, ht, rfl⟩
      exact ⟨x, t, hx, ht, rfl⟩
    · rintro ⟨x, t, hx, ht, rfl⟩
      exact ⟨x, hx, t, ht, rfl⟩

/-- A visit that leaves a finished state alone. -/
def Idle {α σ : Type} (done : σ → Bool) (visit : α → σ → σ) : Prop :=
  ∀ a s, done s = true → visit a s = s

theorem foldl_of_done {α σ : Type} {done : σ → Bool} {visit : α → σ → σ} (idle : Idle done visit)
    (xs : List α) (s : σ) (h : done s = true) : xs.foldl (fun s x => visit x s) s = s := by
  induction xs with
  | nil => rfl
  | cons x xs ih => rw [List.foldl_cons, idle x s h, ih]

/-- Looking whether the search is over before every visit makes no difference if visits leave a
finished state alone. -/
theorem foldl_until_done {α σ : Type} {done : σ → Bool} {visit : α → σ → σ}
    (idle : Idle done visit) (xs : List α) (s : σ) :
    xs.foldl (fun s x => if done s then s else visit x s) s =
      xs.foldl (fun s x => visit x s) s := by
  congr 1
  funext s x
  cases h : done s with
  | false => rfl
  | true => exact (idle x s h).symm

theorem forProduct_eq_foldl {α σ : Type} {done : σ → Bool} {visit : List α → σ → σ}
    (idle : Idle done visit) (xss : List (List α)) (chosen : List α) (s : σ) :
    forProduct done visit xss chosen s =
      (selections xss).foldl (fun s l => visit (chosen ++ l) s) s := by
  induction xss generalizing chosen s with
  | nil => simp [forProduct, selections]
  | cons xs rest ih =>
    have idleRest : Idle done fun x => forProduct done visit rest (chosen ++ [x]) := by
      intro x s h
      simp only [ih]
      exact foldl_of_done (fun l s h => idle (chosen ++ [x] ++ l) s h) _ s h
    simp only [forProduct, selections, List.foldl_flatMap, List.foldl_map]
    rw [foldl_until_done idleRest]
    simp only [ih, List.append_assoc, List.singleton_append]

theorem Idle.forProduct {α σ : Type} {done : σ → Bool} {visit : List α → σ → σ}
    (idle : Idle done visit) (xss : List (List α)) : Idle done (forProduct done visit xss) := by
  intro chosen s h
  rw [forProduct_eq_foldl idle]
  exact foldl_of_done (fun l s h => idle (chosen ++ l) s h) _ s h

/-- Whatever is looked for, the first element of a list that is found has the smallest digits of all
that could be found, and no other one has the same digits. -/
def OrderedBy {α : Type} (digits : α → List Nat) (xs : List α) : Prop :=
  ∀ (p : α → Bool) (a : α), xs.find? p = some a →
    ∀ b ∈ xs, p b = true → b = a ∨ digits a < digits b

/-- All elements of a list have equally many digits. -/
def SameWidth {α : Type} (digits : α → List Nat) (xs : List α) : Prop :=
  ∀ a ∈ xs, ∀ b ∈ xs, (digits a).length = (digits b).length

private theorem append_lt_of_lt {a b : List Nat} (h : a < b) (same : a.length = b.length)
    (s t : List Nat) : a ++ s < b ++ t := by
  induction h with
  | nil => simp at same
  | rel h => exact .rel h
  | cons _ ih => exact .cons (ih (by simpa using same))

private theorem append_lt_append {s t : List Nat} (a : List Nat) (h : s < t) :
    a ++ s < a ++ t := by
  induction a with
  | nil => exact h
  | cons x a ih => exact .cons ih

theorem findSome?_eq_find?_bind {α β : Type} (f : α → Option β) (xs : List α) :
    xs.findSome? f = (xs.find? fun x => (f x).isSome).bind f := by
  induction xs with
  | nil => rfl
  | cons x xs ih =>
    cases h : f x with
    | none => simp [h, ih]
    | some b => simp [h]

/-- An enumeration of pairs is ordered if the first parts are and the second parts are for each
first part. -/
theorem OrderedBy.flatMap {α β γ : Type} {digits : α → List Nat} {inner : α → β → List Nat}
    {joined : γ → List Nat} {xs : List α} {ys : α → List β} {join : α → β → γ}
    (outerOrdered : OrderedBy digits xs) (outerWidth : SameWidth digits xs)
    (innerOrdered : ∀ x ∈ xs, OrderedBy (inner x) (ys x))
    (parts : ∀ x ∈ xs, ∀ y ∈ ys x, joined (join x y) = digits x ++ inner x y) :
    OrderedBy joined (xs.flatMap fun x => (ys x).map (join x)) := by
  intro p a found b member holds
  rw [List.find?_flatMap, findSome?_eq_find?_bind, Option.bind_eq_some_iff] at found
  obtain ⟨x, firstOuter, foundInner⟩ := found
  rw [List.find?_map, Option.map_eq_some_iff] at foundInner
  obtain ⟨y, firstInner, rfl⟩ := foundInner
  have hx := List.mem_of_find?_eq_some firstOuter
  have hy := List.mem_of_find?_eq_some firstInner
  simp only [List.mem_flatMap, List.mem_map] at member
  obtain ⟨x', hx', y', hy', rfl⟩ := member
  have succeeds : (((ys x').map (join x')).find? p).isSome = true := by
    rw [List.find?_isSome]
    exact ⟨join x' y', List.mem_map_of_mem hy', holds⟩
  rw [parts x hx y hy, parts x' hx' y' hy']
  rcases outerOrdered _ x firstOuter x' hx' succeeds with rfl | less
  · rcases innerOrdered x' hx _ y firstInner y' hy' holds with rfl | less
    · exact .inl rfl
    · exact .inr (append_lt_append _ less)
  · exact .inr (append_lt_of_lt less (outerWidth x hx x' hx') _ _)

theorem OrderedBy.singleton {α : Type} (digits : α → List Nat) (a : α) :
    OrderedBy digits [a] := by
  intro p b found c member _
  have hb := List.mem_of_find?_eq_some found
  rw [List.mem_singleton] at hb member
  exact .inl (member.trans hb.symm)

/-- A list is ordered by the places at which its elements come first. -/
theorem orderedBy_idxOf {α : Type} [BEq α] [LawfulBEq α] (xs : List α) :
    OrderedBy (fun x => [xs.idxOf x]) xs := by
  intro p a found b member holds
  obtain ⟨pa, before, after, rfl, none⟩ := List.find?_eq_some_iff_append.1 found
  by_cases same : b = a
  · exact .inl same
  refine .inr (.rel ?_)
  have notBefore : b ∉ before := fun hb => by simpa [holds] using none b hb
  have atMost : (before ++ a :: after).idxOf a ≤ before.length := by
    rw [List.idxOf_append]
    split
    · exact Nat.le_of_lt (List.idxOf_lt_length_of_mem ‹_›)
    · simp
  have beyond : (before ++ a :: after).idxOf b = before.length + ((a :: after).idxOf b) := by
    rw [List.idxOf_append, if_neg notBefore, Nat.add_comm]
  rw [beyond, List.idxOf_cons_ne _ (Ne.symm same)]
  omega

theorem OrderedBy.map {α β : Type} {digits : α → List Nat} {named : β → List Nat} {xs : List α}
    (f : α → β) (ordered : OrderedBy digits xs) (same : ∀ x ∈ xs, named (f x) = digits x) :
    OrderedBy named (xs.map f) := by
  intro p b found c member holds
  rw [List.find?_map, Option.map_eq_some_iff] at found
  obtain ⟨x, found, rfl⟩ := found
  obtain ⟨y, hy, rfl⟩ := List.mem_map.1 member
  rw [same x (List.mem_of_find?_eq_some found), same y hy]
  rcases ordered _ x found y hy holds with rfl | less
  · exact .inl rfl
  · exact .inr less

theorem OrderedBy.selections {α : Type} {digits : α → List Nat} {xss : List (List α)}
    (ordered : ∀ xs ∈ xss, OrderedBy digits xs) (width : ∀ xs ∈ xss, SameWidth digits xs) :
    OrderedBy (fun l => l.flatMap digits) (selections xss) := by
  induction xss with
  | nil => exact .singleton _ _
  | cons xs rest ih =>
    exact (ordered xs List.mem_cons_self).flatMap (width xs List.mem_cons_self)
      (fun x _ => ih (fun ys h => ordered ys (.tail _ h)) fun ys h => width ys (.tail _ h))
      (fun _ _ _ _ => List.flatMap_cons)

/-- Two lists in which the same element comes first, whatever is looked for among good elements. -/
def SameFirst {α : Type} (good : α → Prop) (xs ys : List α) : Prop :=
  ∀ p : α → Bool, (∀ x, p x = true → good x) → xs.find? p = ys.find? p

theorem SameFirst.refl {α : Type} (good : α → Prop) (xs : List α) : SameFirst good xs xs :=
  fun _ _ => rfl

theorem SameFirst.flatMap {α β γ : Type} {good : α → Prop} {inner : α → β → Prop}
    {joined : γ → Prop} {xs ys : List α} {us vs : α → List β} {join : α → β → γ}
    (outerSame : SameFirst good xs ys)
    (innerSame : ∀ x, good x → SameFirst (inner x) (us x) (vs x))
    (parts : ∀ x y, joined (join x y) → good x ∧ inner x y) :
    SameFirst joined (xs.flatMap fun x => (us x).map (join x))
      (ys.flatMap fun x => (vs x).map (join x)) := by
  intro p necessary
  have outerGood : ∀ (ws : α → List β) x,
      (((ws x).map (join x)).find? p).isSome = true → good x := by
    intro ws x found
    obtain ⟨c, member, holds⟩ := List.find?_isSome.1 found
    obtain ⟨y, -, rfl⟩ := List.mem_map.1 member
    exact (parts x y (necessary _ holds)).1
  have agree : ∀ x, ((us x).map (join x)).find? p = ((vs x).map (join x)).find? p := by
    intro x
    by_cases hx : good x
    · rw [List.find?_map, List.find?_map,
        innerSame x hx (p ∘ join x) fun y holds => (parts x y (necessary _ holds)).2]
    · have missed : ∀ ws : α → List β, ((ws x).map (join x)).find? p = none := fun ws =>
        Option.not_isSome_iff_eq_none.1 fun found => hx (outerGood ws x found)
      rw [missed us, missed vs]
  simp only [List.find?_flatMap, agree]
  rw [findSome?_eq_find?_bind, findSome?_eq_find?_bind, outerSame _ (outerGood vs)]

theorem SameFirst.selections {α β : Type} {good : β → α → Prop} {f g : β → List α}
    (blocks : List β) (same : ∀ b ∈ blocks, SameFirst (good b) (f b) (g b)) :
    SameFirst (fun l => ∀ e ∈ blocks.zip l, good e.1 e.2) (selections (blocks.map f))
      (selections (blocks.map g)) := by
  induction blocks with
  | nil => exact .refl _ _
  | cons b blocks ih =>
    refine (same b List.mem_cons_self).flatMap (fun _ _ => ih fun c h => same c (.tail _ h)) ?_
    intro x l holds
    rw [List.zip_cons_cons, List.forall_mem_cons] at holds
    exact holds

end JvmPatch
